-- SUMMARY: Which URLs do_request looks up whole, and when two URLs are one path.
import LinuxLearning.HttpConn.DocRoot

/-!
# The file-name buffer

`do_request` copies the URL into `m_real_file` with `strncpy`, which cuts off what does not
fit. Nothing tells that it has.
-/

namespace Http

open Memory CString

/-- The path of the URL and its NUL fit in `m_real_file`. -/
def Fits (p : List UInt8) : Prop :=
  docRoot.length + p.length < filenameLen

instance : DecidablePred Fits := fun p => Nat.decLt (docRoot.length + p.length) filenameLen

namespace HttpConn

variable {fs fs' : FileSystem} {c c' e e' : HttpConn} {ds ds' : List (List Recv)} {p q : List UInt8}

/-- `do_request` turns the request down without asking the file system. -/
def Refused (e : HttpConn) : Prop :=
  ∀ fs fs', e.doRequest fs = e.doRequest fs'

/-- `do_request` looks up `doc_root` and the whole of the URL `p`, or refuses. -/
def Whole (e : HttpConn) (p : List UInt8) : Prop :=
  e.lookup = .ok (docRoot ++ p) ∨ e.Refused

theorem pathOf_eq_iff (p : List UInt8) : pathOf p = docRoot ++ p ↔ Fits p := by
  have hroot : docRoot.length = 13 := by decide
  have hcap : filenameLen = 200 := rfl
  rw [pathOf, List.append_cancel_left_eq, List.take_eq_self_iff, Fits, hroot, hcap]
  omega

/-- The text of the URL. -/
def urlText (e : HttpConn) : Except Fault (List UInt8) :=
  match e.url with
  | none => throw .nullPointer
  | some u => cstring readBufferSize e.readBuf u

theorem UrlIs.urlText (h : e.UrlIs p) : e.urlText = .ok p := by
  obtain ⟨u, hu, hp⟩ := h
  rw [HttpConn.urlText, hu]
  exact cstring_text hp

/-- A file that is missing and one that others may not read get different answers. -/
theorem not_refused {path : List UInt8} (h : e.lookup = .ok path) : ¬ e.Refused := by
  intro href
  obtain ⟨d, hd, hmissing⟩ := doRequest_lookup h ⟨fun _ => none, fun _ _ => -1⟩
  obtain ⟨d', hd', hsecret⟩ := doRequest_lookup h ⟨fun _ => some ⟨false, false, 0⟩, fun _ _ => -1⟩
  obtain rfl : d = d' := Except.ok.inj (hd.symm.trans hd')
  have hsame := (hmissing.symm.trans (href _ _)).trans hsecret
  have hcode : HttpCode.noResource = .forbiddenRequest := congrArg Prod.snd (Except.ok.inj hsame)
  cases hcode

theorem whole_iff_fits (h : e.lookup = .ok (pathOf p)) : e.Whole p ↔ Fits p := by
  rw [← pathOf_eq_iff]
  constructor
  · rintro (hall | href)
    · exact Except.ok.inj (h.symm.trans hall)
    · exact absurd href (not_refused h)
  · intro hp
    exact .inl (h.trans (congrArg _ hp))

/-- What every call of `do_request` in a run looks up. -/
theorem requests_lookup (he : e ∈ requests fs c.init ds) : ∃ p, e.UrlIs p ∧ e.lookup = .ok (pathOf p) := by
  obtain ⟨d, hd, hreq⟩ := List.mem_filterMap.mp he
  have hinit : c.init.Routed := ⟨init_inv c, fun h => absurd rfl h⟩
  obtain ⟨hrouted, hbody⟩ := feedBodies_routed hinit d hd
  obtain ⟨her, hst⟩ := request_routed hrouted hbody hreq
  obtain ⟨p, hurl, -, hpath⟩ := her.lookup hst
  exact ⟨p, hurl, hpath⟩

/-- Two requests of any runs are looked up under their whole URLs, and under different
    paths where the URLs differ, exactly when both URLs fit. -/
theorem lookup_whole_iff (he : e ∈ requests fs c.init ds) (he' : e' ∈ requests fs' c'.init ds') :
    ∃ p p', e.UrlIs p ∧ e'.UrlIs p' ∧
      (e.Whole p ∧ e'.Whole p' ∧ (p ≠ p' → e.lookup ≠ e'.lookup) ↔ Fits p ∧ Fits p') := by
  obtain ⟨p, hurl, hpath⟩ := requests_lookup he
  obtain ⟨p', hurl', hpath'⟩ := requests_lookup he'
  refine ⟨p, p', hurl, hurl', ?_⟩
  rw [whole_iff_fits hpath, whole_iff_fits hpath']
  constructor
  · rintro ⟨hfits, hfits', -⟩
    exact ⟨hfits, hfits'⟩
  · rintro ⟨hfits, hfits'⟩
    refine ⟨hfits, hfits', fun hne hsame => hne ?_⟩
    rw [hpath, hpath', (pathOf_eq_iff p).mpr hfits, (pathOf_eq_iff p').mpr hfits'] at hsame
    exact List.append_cancel_left (Except.ok.inj hsame)

/-- A request for `/` and `n` letters `a`. -/
def longRequest (n : Nat) : List UInt8 :=
  ascii "GET /" ++ List.replicate n 97 ++ ascii " HTTP/1.1\r\n\r\n"

/-- The URLs of the requests that are made of a `longRequest`. -/
def longUrls (n : Nat) : List (Option (List UInt8)) :=
  (requests ⟨fun _ => none, fun _ _ => -1⟩ blank.init [[.data (longRequest n)]]).map fun e => e.urlText.toOption

theorem longUrls_one {n : Nat} (h : longUrls n = [some p]) :
    ∃ e ∈ requests ⟨fun _ => none, fun _ _ => -1⟩ blank.init [[.data (longRequest n)]],
      e.UrlIs p ∧ e.lookup = .ok (pathOf p) := by
  obtain ⟨e, he, htext⟩ := List.map_eq_singleton_iff.mp h
  have hmem := he ▸ List.mem_singleton_self e
  obtain ⟨q, hurl, hpath⟩ := requests_lookup hmem
  rw [hurl.urlText] at htext
  obtain rfl : q = p := Option.some.inj htext
  exact ⟨e, hmem, hurl, hpath⟩

theorem lookup_whole_iff_short :
    ∃ e ∈ requests ⟨fun _ => none, fun _ _ => -1⟩ blank.init [[.data (longRequest 1)]],
      ∃ p p', e.UrlIs p ∧ e.UrlIs p' ∧
        (e.Whole p ∧ e.Whole p' ∧ (p ≠ p' → e.lookup ≠ e.lookup) ↔ Fits p ∧ Fits p') := by
  have hone : longUrls 1 = [some (ascii "/a")] := by decide +kernel
  obtain ⟨e, he, -⟩ := longUrls_one hone
  exact ⟨e, he, lookup_whole_iff he he⟩

set_option maxRecDepth 2000 in
/-- A URL of 187 bytes and one of 188 are looked up under one path. -/
theorem long_urls_collide :
    ∃ e ∈ requests ⟨fun _ => none, fun _ _ => -1⟩ blank.init [[.data (longRequest 186)]],
    ∃ e' ∈ requests ⟨fun _ => none, fun _ _ => -1⟩ blank.init [[.data (longRequest 187)]],
      ∃ p p', e.UrlIs p ∧ e'.UrlIs p' ∧ p ≠ p' ∧ e.lookup = e'.lookup ∧ ¬ e.Whole p ∧ ¬ e'.Whole p' := by
  have hone : longUrls 186 = [some (47 :: List.replicate 186 97)] := by decide +kernel
  have htwo : longUrls 187 = [some (47 :: List.replicate 187 97)] := by decide +kernel
  obtain ⟨e, he, hurl, hpath⟩ := longUrls_one hone
  obtain ⟨e', he', hurl', hpath'⟩ := longUrls_one htwo
  have hsame : pathOf (47 :: List.replicate 186 97) = pathOf (47 :: List.replicate 187 97) := by
    simp [pathOf]
  refine ⟨e, he, e', he', _, _, hurl, hurl', by simp, ?_, ?_, ?_⟩
  · rw [hpath, hpath', hsame]
  · rw [whole_iff_fits hpath]
    decide
  · rw [whole_iff_fits hpath']
    decide

end HttpConn

end Http
