-- SUMMARY: The loop of main in http_parse.cpp, and which of its two answers a client gets, whatever it sends and however it arrives.
import LinuxLearning.HttpParse.Agreement

/-!
# What main answers

`main` reads from its one client until `parse_content` has an answer, or the connection ends.
`parse_line` gives up at the first byte of text, so that the parser never gets past an empty
line, and a client is told that something is wrong whatever its request is.
-/

namespace HttpParse

open Memory CString Http

/-- What `recv` returns: -1, 0, or bytes. It returns 0 for a buffer without room too. -/
inductive Recv where
  | failed
  | closed
  | data (bs : List UInt8)
deriving Repr, DecidableEq

/-- The texts of `szret`. -/
inductive Reply where
  | correct
  | wrong
deriving Repr, DecidableEq

/-- The loop of `main` over what `recv` returns, and the text it sends. -/
def serve : List Recv → Parser → Except Fault (Parser × Option Reply)
  | [], p => return (p, none)
  | .failed :: _, p => return (p, none)
  | .closed :: _, p => return (p, none)
  | .data bs :: rs, p => do
    let (p, result) ← (p.append bs).parseContent
    match result with
    | .noRequest => serve rs p
    | .getRequest => return (p, some .correct)
    | _ => return (p, some .wrong)

/-- `recv` returns some bytes, and no more than there is room for behind the first `n`. -/
def Fits : Nat → List Recv → Prop
  | n, .data bs :: rs => bs ≠ [] ∧ n + bs.length ≤ bufferSize ∧ Fits (n + bs.length) rs
  | _, _ => True

/-- The bytes that arrive before `recv` fails or the client closes. -/
def received : List Recv → List UInt8
  | [] => []
  | .failed :: _ => []
  | .closed :: _ => []
  | .data bs :: rs => bs ++ received rs

/-- Nothing the parser decides on. -/
def Undecided (u : List UInt8) : Prop :=
  u = [] ∨ u = [cr]

instance (u : List UInt8) : Decidable (Undecided u) :=
  inferInstanceAs (Decidable (u = [] ∨ u = [cr]))

variable {u : List UInt8} {rs : List Recv}

theorem Undecided.of_append {v : List UInt8} (h : Undecided (u ++ v)) : Undecided u := by
  rcases h with h | h
  · exact .inl (List.append_eq_nil_iff.mp h).1
  · rcases List.append_eq_singleton_iff.mp h with ⟨hu, -⟩ | ⟨hu, -⟩
    · exact .inl hu
    · exact .inr hu

theorem parseContent_undecided {bs : List UInt8} (hne : bs ≠ []) (hlen : (u ++ bs).length ≤ bufferSize) :
    if Undecided (u ++ bs) then
      ((Parser.init.append u).append bs).parseContent = .ok (Parser.init.append (u ++ bs), .noRequest)
    else ∃ p, ((Parser.init.append u).append bs).parseContent = .ok (p, .badRequest) := by
  have hne' : u ++ bs ≠ [] := by simp [hne]
  rw [← Parser.append_append]
  rcases Parser.parseContent_first hne' hlen with ⟨hcr, hrun⟩ | ⟨hcr, hrun⟩
  · rw [if_pos (.inr hcr)]
    exact hrun
  · have hdecided : ¬ Undecided (u ++ bs) := not_or.mpr ⟨hne', hcr⟩
    rw [if_neg hdecided]
    exact hrun

/-- The bytes `u` have arrived, and nothing is decided yet. -/
theorem serve_from (hu : Undecided u) (hfits : Fits u.length rs) :
    ∃ p, serve rs (Parser.init.append u) =
      .ok (p, if Undecided (u ++ received rs) then none else some .wrong) := by
  induction rs generalizing u with
  | nil => exact ⟨_, by rw [received, List.append_nil, if_pos hu]; rfl⟩
  | cons r rs ih =>
    cases r with
    | failed => exact ⟨_, by rw [received, List.append_nil, if_pos hu]; rfl⟩
    | closed => exact ⟨_, by rw [received, List.append_nil, if_pos hu]; rfl⟩
    | data bs =>
      obtain ⟨hne, hlen, hrest⟩ := hfits
      rw [← List.length_append] at hlen hrest
      have hparse := parseContent_undecided hne hlen
      rw [received, ← List.append_assoc]
      by_cases hund : Undecided (u ++ bs)
      · rw [if_pos hund] at hparse
        obtain ⟨p, hp⟩ := ih hund hrest
        refine ⟨p, ?_⟩
        rw [serve, hparse]
        exact hp
      · rw [if_neg hund] at hparse
        obtain ⟨p, hp⟩ := hparse
        refine ⟨p, ?_⟩
        rw [serve, hp, if_neg fun h => hund h.of_append]
        rfl

/-- Whatever a client sends, and however it arrives, `main` never answers that it got a correct
    result. It answers that something is wrong, unless the connection ends before there is more
    than a carriage return. -/
theorem serve_wrong (rs : List Recv) (hfits : Fits 0 rs) :
    ∃ p, serve rs .init = .ok (p, if received rs = [] ∨ received rs = [cr] then none else some .wrong) := by
  have hinit : Parser.init.append [] = Parser.init := rfl
  obtain ⟨p, hp⟩ := serve_from (u := []) (.inl rfl) hfits
  rw [hinit, List.nil_append] at hp
  exact ⟨p, hp⟩

/-- A proper request, in two pieces. -/
theorem serve_wrong_get : ∃ p,
    serve [.data (ascii "GET / HT"), .data (ascii "TP/1.1\r\n\r\n")] .init = .ok (p, some .wrong) :=
  serve_wrong [.data (ascii "GET / HT"), .data (ascii "TP/1.1\r\n\r\n")]
    ⟨by decide, by decide, by decide, by decide, trivial⟩

end HttpParse
