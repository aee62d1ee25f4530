-- SUMMARY: What holds of the eventpoll in every run: the lists, the registered items, the holder of the mutex; and that no step touches a freed item.
import LinuxLearning.Epoll.Lists

/-!
# Safety of the eventpoll

The lists are as `Lists` says, an item in memory is registered or being inserted, callbacks
are under way for hooked items only, and the overflow chain is there exactly as long as a
thread scans.
-/

namespace Epoll

open Memory SinglyLinked Transition

variable {φ τ : Type}

/-- The item that is being inserted. -/
def Mtx.inserting : Mtx τ → Option (Ptr × Insert)
  | .insert epi phase => some (epi, phase)
  | _ => none

/-- The items in memory, with the callbacks under way and the item that is being inserted. -/
structure Registry (e : Eventpoll φ) (calls : Ptr → List Events) (ins : Option (Ptr × Insert)) : Prop where
  rbr : ∀ ffd p, e.rbr ffd = some p → ∃ v, e.items p = some v ∧ v.ffd = ffd
  registered : ∀ p v, e.items p = some v → e.rbr v.ffd = some p ∨ ∃ phase, ins = some (p, phase)
  inserting : ∀ p phase, ins = some (p, phase) →
    ∃ v, e.items p = some v ∧ e.rbr v.ffd = none ∧ (phase = .unregistered → v.pwqlist = 0)
  calls : ∀ p, calls p ≠ [] → ∃ v, e.items p = some v ∧ 0 < v.pwqlist

/-- The thread that scans, and the overflow chain that is there as long as it does. -/
structure Scanner (ovflist : Link) (mtx : Mtx τ) (threads : τ → Thread) : Prop where
  scan : ∀ t sent phase, mtx = .scan t sent phase → ovflist ≠ .unactive ∧ ∃ m j, threads t = .scanning m j
  noScan : (∀ t sent phase, mtx ≠ .scan t sent phase) → ovflist = .unactive
  thread : ∀ t m j, threads t = .scanning m j → ∃ sent phase, mtx = .scan t sent phase

structure System.Inv (s : System φ τ) : Prop where
  lists : Lists s.ep s.mtx.hand
  registry : Registry s.ep s.calls s.mtx.inserting
  scanner : Scanner s.ep.ovflist s.mtx s.threads

variable {e e' : Eventpoll φ} {calls calls' : Ptr → List Events} {ins : Option (Ptr × Insert)} {p q : Ptr}
  {v v' : Epitem φ} {key : Events}

-- ---------------------------------------------------------------------------
-- The registry
-- ---------------------------------------------------------------------------

/-- What the registry depends on in an item. -/
def Epitem.shape (v : Epitem φ) : EpollFilefd φ × Nat :=
  (v.ffd, v.pwqlist)

theorem exists_of_shape {items items' : Store (Epitem φ)}
    (h : ∀ q, (items' q).map Epitem.shape = (items q).map Epitem.shape) (hv : items p = some v) :
    ∃ v', items' p = some v' ∧ v'.ffd = v.ffd ∧ v'.pwqlist = v.pwqlist := by
  have hp := h p
  rw [hv, Option.map_some, Option.map_eq_some_iff] at hp
  obtain ⟨v', hv', hshape⟩ := hp
  exact ⟨v', hv', congrArg Prod.fst hshape, congrArg Prod.snd hshape⟩

/-- The registry depends on nothing else. -/
theorem Registry.congr (h : Registry e calls ins) (hrbr : e'.rbr = e.rbr)
    (hitems : ∀ q, (e'.items q).map Epitem.shape = (e.items q).map Epitem.shape)
    (hcalls : ∀ q, calls' q ≠ [] → calls q ≠ []) : Registry e' calls' ins where
  rbr ffd p hp := by
    obtain ⟨v, hv, hffd⟩ := h.rbr ffd p (hrbr ▸ hp)
    obtain ⟨v', hv', hffd', -⟩ := exists_of_shape hitems hv
    exact ⟨v', hv', hffd'.trans hffd⟩
  registered p v' hv' := by
    obtain ⟨v, hv, hffd, -⟩ := exists_of_shape (fun q => (hitems q).symm) hv'
    rw [hrbr, ← hffd]
    exact h.registered p v hv
  inserting p phase hp := by
    obtain ⟨v, hv, hnone, hpwq⟩ := h.inserting p phase hp
    obtain ⟨v', hv', hffd, hlen⟩ := exists_of_shape hitems hv
    exact ⟨v', hv', by rw [hrbr, hffd, hnone], fun hphase => hlen.trans (hpwq hphase)⟩
  calls p hp := by
    obtain ⟨v, hv, hpos⟩ := h.calls p (hcalls p hp)
    obtain ⟨v', hv', -, hlen⟩ := exists_of_shape hitems hv
    exact ⟨v', hv', hlen ▸ hpos⟩

theorem shape_update (hv : e.items p = some v) (hshape : v'.shape = v.shape) (q : Ptr) :
    (Function.update e.items p (some v') q).map Epitem.shape = (e.items q).map Epitem.shape := by
  by_cases hq : q = p
  · subst hq
    rw [Function.update_self, hv, Option.map_some, Option.map_some, hshape]
  · rw [Function.update_of_ne hq]

/-- An item is allocated, to be inserted. -/
theorem Registry.insertItem (h : Registry e calls none) {ffd : EpollFilefd φ} (hrbr : e.rbr ffd = none)
    (hp : e.items p = none) (event : EpollEvent) :
    Registry (e.insertItem p ffd event) calls (some (p, .poll)) where
  rbr ffd' q hq := by
    obtain ⟨v, hv, hffd⟩ := h.rbr ffd' q hq
    have hne : q ≠ p := by
      rintro rfl
      rw [hp] at hv
      cases hv
    exact ⟨v, (Function.update_of_ne hne ..).trans hv, hffd⟩
  registered q v hv := by
    by_cases hq : q = p
    · subst hq
      exact .inr ⟨_, rfl⟩
    · simp only [Eventpoll.insertItem, Function.update_of_ne hq] at hv
      rcases h.registered q v hv with hreg | ⟨phase, hphase⟩
      · exact .inl hreg
      · cases hphase
  inserting q phase hq := by
    cases hq
    exact ⟨_, Function.update_self .., hrbr, fun hphase => by cases hphase⟩
  calls q hq := by
    obtain ⟨v, hv, hpos⟩ := h.calls q hq
    have hne : q ≠ p := by
      rintro rfl
      rw [hp] at hv
      cases hv
    exact ⟨v, (Function.update_of_ne hne ..).trans hv, hpos⟩

/-- The wait queue entries of the item that is being inserted change. -/
theorem Registry.setItem {phase phase' : Insert} (h : Registry e calls (some (p, phase)))
    (hv : e.items p = some v) (hffd : v'.ffd = v.ffd) (hpos : calls' p ≠ [] → 0 < v'.pwqlist)
    (hcalls : ∀ q, q ≠ p → calls' q = calls q) (hzero : phase' = .unregistered → v'.pwqlist = 0) :
    Registry { e with items := Function.update e.items p (some v') } calls' (some (p, phase')) where
  rbr ffd q hq := by
    obtain ⟨w, hw, hwf⟩ := h.rbr ffd q hq
    by_cases hqp : q = p
    · subst hqp
      obtain rfl := Option.some.inj (hv.symm.trans hw)
      exact ⟨v', Function.update_self .., hffd.trans hwf⟩
    · exact ⟨w, (Function.update_of_ne hqp ..).trans hw, hwf⟩
  registered q w hw := by
    by_cases hqp : q = p
    · subst hqp
      exact .inr ⟨phase', rfl⟩
    · simp only [Function.update_of_ne hqp] at hw
      rcases h.registered q w hw with hreg | ⟨ph, hph⟩
      · exact .inl hreg
      · cases hph
        exact absurd rfl hqp
  inserting q ph hq := by
    cases hq
    obtain ⟨w, hw, hnone, -⟩ := h.inserting p phase rfl
    obtain rfl := Option.some.inj (hv.symm.trans hw)
    exact ⟨v', Function.update_self .., by rw [hffd]; exact hnone, hzero⟩
  calls q hq := by
    by_cases hqp : q = p
    · subst hqp
      exact ⟨v', Function.update_self .., hpos hq⟩
    · rw [hcalls q hqp] at hq
      obtain ⟨w, hw, hlen⟩ := h.calls q hq
      exact ⟨w, (Function.update_of_ne hqp ..).trans hw, hlen⟩

theorem Registry.polled {phase : Insert} (h : Registry e calls (some (p, phase))) (revents : Events) :
    Registry e calls (some (p, .polled revents)) where
  rbr := h.rbr
  registered q v hv := by
    rcases h.registered q v hv with hreg | ⟨ph, hph⟩
    · exact .inl hreg
    · cases hph
      exact .inr ⟨_, rfl⟩
  inserting q ph hq := by
    cases hq
    obtain ⟨v, hv, hnone, -⟩ := h.inserting p phase rfl
    exact ⟨v, hv, hnone, nofun⟩
  calls := h.calls

/-- The item is in the tree. -/
theorem Registry.register [DecidableEq φ] {phase : Insert} (h : Registry e calls (some (p, phase)))
    (hv : e.items p = some v) :
    Registry { e with rbr := Function.update e.rbr v.ffd (some p) } calls none where
  rbr ffd q hq := by
    by_cases hffd : ffd = v.ffd
    · subst hffd
      simp only [Function.update_self, Option.some.injEq] at hq
      subst hq
      exact ⟨v, hv, rfl⟩
    · simp only [Function.update_of_ne hffd] at hq
      exact h.rbr ffd q hq
  registered q w hw := by
    by_cases hqp : q = p
    · subst hqp
      obtain rfl := Option.some.inj (hv.symm.trans hw)
      exact .inl (Function.update_self ..)
    · rcases h.registered q w hw with hreg | ⟨ph, hph⟩
      · obtain ⟨v₀, hv₀, hnone, -⟩ := h.inserting p phase rfl
        obtain rfl := Option.some.inj (hv.symm.trans hv₀)
        have hne : w.ffd ≠ v.ffd := by
          intro heq
          rw [heq, hnone] at hreg
          cases hreg
        exact .inl ((Function.update_of_ne hne ..).trans hreg)
      · cases hph
        exact absurd rfl hqp
  inserting q ph hq := by cases hq
  calls := h.calls

/-- The item is freed, and no callback is under way for it. -/
theorem Registry.insertFree (h : Registry e calls (some (p, .unregistered))) :
    Registry { e with items := Function.update e.items p none, rdllist := e.rdllist.erase p } calls none where
  rbr ffd q hq := by
    obtain ⟨w, hw, hffd⟩ := h.rbr ffd q hq
    have hne : q ≠ p := by
      rintro rfl
      obtain ⟨v, hv, hnone, -⟩ := h.inserting q _ rfl
      obtain rfl := Option.some.inj (hv.symm.trans hw)
      rw [hffd] at hnone
      cases hnone.symm.trans hq
    exact ⟨w, (Function.update_of_ne hne ..).trans hw, hffd⟩
  registered q w hw := by
    have hne : q ≠ p := by
      rintro rfl
      simp at hw
    simp only [Function.update_of_ne hne] at hw
    rcases h.registered q w hw with hreg | ⟨ph, hph⟩
    · exact .inl hreg
    · cases hph
      exact absurd rfl hne
  inserting q ph hq := by cases hq
  calls q hq := by
    obtain ⟨w, hw, hpos⟩ := h.calls q hq
    have hne : q ≠ p := by
      rintro rfl
      obtain ⟨v, hv, -, hzero⟩ := h.inserting q _ rfl
      obtain rfl := Option.some.inj (hv.symm.trans hw)
      rw [hzero rfl] at hpos
      exact absurd hpos (Nat.lt_irrefl 0)
    exact ⟨w, (Function.update_of_ne hne ..).trans hw, hpos⟩

-- ---------------------------------------------------------------------------
-- The scanner
-- ---------------------------------------------------------------------------

variable {ovflist ovflist' : Link} {mtx mtx' : Mtx τ} {threads threads' : τ → Thread} {wakes : Bool} {t : τ}

/-- Threads move, but not those that scan. -/
theorem Scanner.congr (h : Scanner ovflist mtx threads)
    (hthreads : ∀ t m j, threads' t = .scanning m j ↔ threads t = .scanning m j) :
    Scanner ovflist mtx threads' where
  scan t sent phase hmtx := by
    obtain ⟨hovf, m, j, hscan⟩ := h.scan t sent phase hmtx
    exact ⟨hovf, m, j, (hthreads t m j).mpr hscan⟩
  noScan := h.noScan
  thread t m j hscan := h.thread t m j ((hthreads t m j).mp hscan)

/-- The thread that scans goes on. -/
theorem Scanner.goto {sent sent' : List EpollEvent} {phase phase' : Scan}
    (h : Scanner ovflist (.scan t sent phase) threads) (hovf : ovflist ≠ .unactive → ovflist' ≠ .unactive) :
    Scanner ovflist' (.scan t sent' phase') threads where
  scan t' sent'' phase'' hmtx := by
    cases hmtx
    obtain ⟨hne, hscan⟩ := h.scan t sent phase rfl
    exact ⟨hovf hne, hscan⟩
  noScan hno := absurd rfl (hno t sent' phase')
  thread t' m j hscan := by
    obtain ⟨sent'', phase'', hmtx⟩ := h.thread t' m j hscan
    cases hmtx
    exact ⟨sent', phase', rfl⟩

theorem Scanner.noThread (h : Scanner ovflist mtx threads) (hno : ∀ t sent phase, mtx ≠ .scan t sent phase)
    (t : τ) (m : Nat) (j : Jiffies) : threads t ≠ .scanning m j := by
  intro hscan
  obtain ⟨sent, phase, hmtx⟩ := h.thread t m j hscan
  exact hno t sent phase hmtx

/-- Without a scan the mutex is taken and released. -/
theorem Scanner.setMtx (h : Scanner ovflist mtx threads) (hno : ∀ t sent phase, mtx ≠ .scan t sent phase)
    (hno' : ∀ t sent phase, mtx' ≠ .scan t sent phase) : Scanner ovflist mtx' threads where
  scan t sent phase hmtx := absurd hmtx (hno' t sent phase)
  noScan _ := h.noScan hno
  thread t m j hscan := absurd hscan (h.noThread hno t m j)

section

variable [DecidableEq τ]

/-- A wake-up changes sleeping threads only. -/
theorem System.WakeUpIf.eq_or (h : System.WakeUpIf wakes threads threads') (t : τ) :
    threads' t = threads t ∨ ∃ m j j', threads t = .asleep m j ∧ threads' t = .woken m j' := by
  cases wakes with
  | false => exact .inl (congrFun h t)
  | true =>
    cases h with
    | none _ => exact .inl rfl
    | @one t' m j j' hasleep _ =>
      by_cases ht : t = t'
      · subst ht
        exact .inr ⟨m, j, j', hasleep, Function.update_self ..⟩
      · exact .inl (Function.update_of_ne ht ..)

theorem System.WakeUpIf.scanning (h : System.WakeUpIf wakes threads threads') {m : Nat} {j : Jiffies} :
    threads' t = .scanning m j ↔ threads t = .scanning m j := by
  rcases h.eq_or t with heq | ⟨m', j', j'', hasleep, hwoken⟩
  · rw [heq]
  · simp [hasleep, hwoken]

theorem Scanner.update (h : Scanner ovflist mtx threads) {x : Thread} (ht : ∀ m j, threads t ≠ .scanning m j)
    (hx : ∀ m j, x ≠ .scanning m j) : Scanner ovflist mtx (Function.update threads t x) := by
  refine h.congr fun t' m j => ?_
  by_cases heq : t' = t
  · subst heq
    rw [Function.update_self]
    exact iff_of_false (hx m j) (ht m j)
  · rw [Function.update_of_ne heq]

/-- A thread starts to scan. -/
theorem Scanner.splice (h : Scanner ovflist mtx threads) (hno : ∀ t sent phase, mtx ≠ .scan t sent phase)
    {ovflist' : Link} (hovf : ovflist' ≠ .unactive) (m : Nat) (j : Jiffies) :
    Scanner ovflist' (.scan t [] .loop) (Function.update threads t (.scanning m j)) where
  scan t' sent phase hmtx := by
    cases hmtx
    exact ⟨hovf, m, j, Function.update_self ..⟩
  noScan hno := absurd rfl (hno t [] .loop)
  thread t' m' j' hscan := by
    by_cases heq : t' = t
    · exact ⟨[], .loop, heq ▸ rfl⟩
    · rw [Function.update_of_ne heq] at hscan
      exact absurd hscan (h.noThread hno t' m' j')

/-- A thread has scanned. -/
theorem Scanner.requeue {sent : List EpollEvent} {phase : Scan}
    (h : Scanner ovflist (.scan t sent phase) threads) {x : Thread} (hx : ∀ m j, x ≠ .scanning m j) :
    Scanner .unactive .free (Function.update threads t x) where
  scan t' sent phase hmtx := by cases hmtx
  noScan _ := rfl
  thread t' m j hscan := by
    by_cases heq : t' = t
    · subst heq
      rw [Function.update_self] at hscan
      exact absurd hscan (hx m j)
    · rw [Function.update_of_ne heq] at hscan
      obtain ⟨sent', phase', hmtx⟩ := h.thread t' m j hscan
      cases hmtx
      exact absurd rfl heq

end

-- ---------------------------------------------------------------------------
-- Steps
-- ---------------------------------------------------------------------------

namespace System

variable {s u : System φ τ} {ev : Event φ τ}

theorem start_inv : (start : System φ τ).Inv where
  lists := ⟨List.nodup_nil, nofun, ⟨[], rfl, nofun⟩, fun _ => rfl⟩
  registry := ⟨nofun, nofun, nofun, fun _ hp => absurd rfl hp⟩
  scanner := ⟨nofun, fun _ => rfl, nofun⟩

theorem Inv.noScan (h : s.Inv) (hno : ∀ t sent phase, s.mtx ≠ .scan t sent phase) :
    s.ep.ovflist = .unactive ∧ s.mtx.hand = [] := by
  refine ⟨h.scanner.noScan hno, ?_⟩
  cases hmtx : s.mtx with
  | free => rfl
  | insert epi phase => rfl
  | scan t sent phase => exact absurd hmtx (hno t sent phase)

/-- The item of a callback is not in the hand of a scan if the callback may link it. -/
theorem Inv.hand (h : s.Inv) (hovf : s.ep.ovflist = .unactive) : s.mtx.hand = [] := by
  refine (h.noScan fun t sent phase hmtx => ?_).2
  exact (h.scanner.scan t sent phase hmtx).1 hovf

/-- The item is in memory, and in the tree or being inserted. -/
def Owned (s : System φ τ) (p : Ptr) : Prop :=
  ∃ v, s.ep.items p = some v ∧ (s.ep.rbr v.ffd = some p ∨ ∃ phase, s.mtx = .insert p phase)

theorem Inv.owned (h : s.Inv) {p : Ptr} (hp : (s.ep.items p).isSome) : s.Owned p := by
  obtain ⟨v, hv⟩ := Option.isSome_iff_exists.mp hp
  refine ⟨v, hv, (h.registry.registered p v hv).imp_right fun hins => ?_⟩
  obtain ⟨phase, hphase⟩ := hins
  refine ⟨phase, ?_⟩
  cases hmtx : s.mtx with
  | free => rw [hmtx] at hphase; cases hphase
  | insert q phase' => rw [hmtx] at hphase; cases hphase; rfl
  | scan t sent phase' => rw [hmtx] at hphase; cases hphase

/-- The end of a scan puts back what is left of it and what came meanwhile. -/
theorem Inv.requeued (h : s.Inv) {t : τ} {sent : List EpollEvent} {res : Int} {e : Eventpoll φ}
    (hmtx : s.mtx = .scan t sent (.done res)) (hrun : Yields (fun n => s.ep.scanRequeue n) e) :
    ∃ ps, (∀ q ∈ ps, (s.ep.items q).isSome) ∧ Requeued s.ep e ps := by
  have hlists := h.lists
  rw [hmtx] at hlists
  obtain ⟨e', ps, hyields, hlive, hreq⟩ := hlists.scanRequeue (h.scanner.scan t sent _ hmtx).1
  obtain rfl := hrun.unique hyields
  exact ⟨ps, hlive, hreq⟩

theorem Inv.overflow (h : s.Inv) : ∃ ps, s.ep.Overflow ps ∧ ps.Nodup ∧
    (∀ p, p ∈ ps ↔ ∃ v, s.ep.items p = some v ∧ v.next ≠ .unactive) ∧
    ((∀ t sent phase, s.mtx ≠ .scan t sent phase) → ps = []) := by
  obtain ⟨ps, hps, hiff⟩ := h.lists.overflow
  refine ⟨ps, hps, ?_, fun p => ⟨fun hp => ?_, ?_⟩, fun hno => ?_⟩
  · unfold Eventpoll.Overflow at hps
    split at hps
    · rw [hps]
      exact List.nodup_nil
    · exact Chain.nodup hps
  · obtain ⟨v, hv⟩ := Option.isSome_iff_exists.mp (hps.live hp)
    exact ⟨v, hv, (hiff p v hv).mpr hp⟩
  · rintro ⟨v, hv, hne⟩
    exact (hiff p v hv).mp hne
  · simpa only [Eventpoll.Overflow, h.scanner.noScan hno] using hps

variable [DecidableEq φ] [DecidableEq τ]

theorem Step.inv (hstep : Step s ev u) (h : s.Inv) : u.Inv := by
  obtain ⟨hlists, hreg, hscan⟩ := h
  cases hstep with
  | @device f bits key _ _ =>
    refine ⟨hlists, ⟨hreg.rbr, hreg.registered, hreg.inserting, fun p hp => ?_⟩, hscan⟩
    by_cases hhook : Hooked s.ep f p
    · obtain ⟨v, hv, -, hpos⟩ := hhook
      exact ⟨v, hv, hpos⟩
    · simp only [wakeFile, if_neg hhook] at hp
      exact hreg.calls p hp
  | consume => exact ⟨hlists, hreg, hscan⟩
  | @callback p key e wakes threads hmem hrun hwake =>
    obtain ⟨v, hv, hpos⟩ := hreg.calls p (List.ne_nil_of_mem hmem)
    have hcalls : ∀ q, Function.update s.calls p ((s.calls p).erase key) q ≠ [] → s.calls q ≠ [] := by
      intro q hq
      by_cases hqp : q = p
      · rw [hqp]
        exact List.ne_nil_of_mem hmem
      · rwa [Function.update_of_ne hqp] at hq
    have hthreads : Scanner s.ep.ovflist s.mtx threads := hscan.congr fun t m j => hwake.scanning
    rcases pollCallback_cases hv hrun with ⟨rfl, -, -⟩ | ⟨-, hovf, hnext, -, rfl⟩ | ⟨-, hovf, -, rfl⟩
    · exact ⟨hlists, hreg.congr rfl (fun _ => rfl) hcalls, hthreads⟩
    · refine ⟨hlists.addOverflow hv hovf hnext, hreg.congr rfl (shape_update hv rfl) hcalls, ?_⟩
      exact ⟨fun t sent phase hmtx => ⟨nofun, (hthreads.scan t sent phase hmtx).2⟩,
        fun hno => absurd (hthreads.noScan hno) hovf, hthreads.thread⟩
    · have hhand : p ∉ s.mtx.hand := by
        rw [Inv.hand ⟨hlists, hreg, hscan⟩ hovf]
        exact List.not_mem_nil
      refine ⟨hlists.addReady hhand hv, hreg.congr addReady_rbr (fun q => by rw [addReady_items]) hcalls, ?_⟩
      rw [addReady_ovflist]
      exact hthreads
  | @insert p ffd event hfree hrbr hp =>
    rw [hfree] at hlists hreg hscan
    exact ⟨hlists.insertItem hp ffd _, hreg.insertItem hrbr hp _, hscan.setMtx nofun nofun⟩
  | @queueProc p allocated e hmtx hrun =>
    rw [hmtx] at hlists hreg hscan
    obtain ⟨v, hv, -, -⟩ := hreg.inserting p _ rfl
    obtain ⟨n, k, hk, rfl⟩ := ptableQueueProc_cases hv hrun
    refine ⟨by rw [hmtx]; exact hlists.setItem hv rfl, ?_, by rw [hmtx]; exact hscan⟩
    show Registry _ s.calls s.mtx.inserting
    rw [hmtx]
    refine hreg.setItem hv rfl (fun hp => ?_) (fun _ _ => rfl) (by rintro ⟨⟩)
    obtain ⟨w, hw, hpos⟩ := hreg.calls p hp
    obtain rfl := Option.some.inj (hv.symm.trans hw)
    exact hpos.trans_le hk
  | @insertPoll p v hmtx _ =>
    rw [hmtx] at hlists hreg hscan
    exact ⟨hlists, hreg.polled _, hscan.setMtx nofun nofun⟩
  | @insertReady p revents v e wakes threads hmtx hv _ hrun hwake =>
    rw [hmtx] at hlists hreg hscan
    have hfree : Scanner s.ep.ovflist .free s.threads := hscan.setMtx nofun nofun
    have hthreads : Scanner s.ep.ovflist .free threads := hfree.congr fun t m j => hwake.scanning
    have hregister := hreg.register hv
    have hsame : Lists { s.ep with rbr := Function.update s.ep.rbr v.ffd (some p) } [] :=
      ⟨hlists.nodup, hlists.live, hlists.overflow, hlists.txlist⟩
    rcases insertReady_cases hv hrun with ⟨-, -, rfl⟩ | ⟨-, -, rfl⟩
    · refine ⟨hsame.addReady List.not_mem_nil hv, ?_, ?_⟩
      · exact hregister.congr addReady_rbr (fun q => by rw [addReady_items]) fun q hq => hq
      · rw [addReady_ovflist]
        exact hthreads
    · exact ⟨hsame, hregister, hthreads⟩
  | @unregister p revents v hmtx hv _ =>
    rw [hmtx] at hlists hreg hscan
    refine ⟨hlists.setItem hv rfl, ?_, hscan.setMtx nofun nofun⟩
    refine hreg.setItem hv rfl (fun hp => ?_) (fun q hq => Function.update_of_ne hq ..) fun _ => rfl
    simp only [Function.update_self] at hp
    exact absurd rfl hp
  | @insertFree p e hmtx hrun =>
    rw [hmtx] at hlists hreg hscan
    obtain ⟨v, hv, -⟩ := hreg.inserting p _ rfl
    obtain rfl := insertFree_eq hv hrun
    exact ⟨hlists.insertFree (hscan.noScan nofun), hreg.insertFree, hscan.setMtx nofun nofun⟩
  | @wait t m j res ht _ =>
    exact ⟨hlists, hreg, hscan.update (by simp [ht]) (by simp)⟩
  | @look t m j signal ht =>
    refine ⟨hlists, hreg, hscan.update (fun m' j' => ?_) fun m' j' => ?_⟩
    · rcases ht with ht | ht <;> simp [ht]
    · unfold epPoll
      split
      · split <;> simp
      · split <;> simp
  | @wakeUp t m j j' ht _ =>
    exact ⟨hlists, hreg, hscan.update (by simp [ht]) (by simp)⟩
  | @splice t m j ht hfree =>
    have hovf := hscan.noScan fun t sent phase hmtx => by rw [hfree] at hmtx; cases hmtx
    rw [hfree] at hlists hreg hscan
    have hactive : s.ep.scanSplice.ovflist ≠ .unactive := by rintro ⟨⟩
    exact ⟨hlists.splice hovf, hreg.congr rfl (fun _ => rfl) fun q hq => hq, hscan.splice nofun hactive m j⟩
  | @take t sent m j p rest hmtx ht htx _ =>
    rw [hmtx] at hlists hreg hscan
    have htaken : Lists { s.ep with txlist := rest, rdllist := s.ep.rdllist } [p] :=
      hlists.sublist (by rw [htx]; exact List.Subperm.refl _) fun hovf => absurd hovf (hscan.scan t sent _ rfl).1
    exact ⟨htaken, hreg.congr rfl (fun _ => rfl) fun q hq => hq, hscan.goto fun hne => hne⟩
  | @stop t sent m j hmtx _ _ =>
    rw [hmtx] at hlists hreg hscan
    exact ⟨hlists, hreg, hscan.goto fun hne => hne⟩
  | @poll t sent p v hmtx _ =>
    rw [hmtx] at hlists hreg hscan
    have hdrop : Lists { s.ep with txlist := s.ep.txlist, rdllist := s.ep.rdllist } [] :=
      hlists.sublist (List.Sublist.subperm (List.sublist_cons_self ..)) hlists.txlist
    refine ⟨?_, hreg, hscan.goto fun hne => hne⟩
    unfold polled
    split
    · exact hlists
    · exact hdrop
  | @put t sent p revents v e hmtx hv hrun =>
    rw [hmtx] at hlists hreg hscan
    have hdrop : Lists { s.ep with txlist := s.ep.txlist, rdllist := s.ep.rdllist } [] :=
      hlists.sublist (List.Sublist.subperm (List.sublist_cons_self ..)) hlists.txlist
    have hback : Lists { s.ep with txlist := s.ep.txlist, rdllist := s.ep.rdllist ++ [p] } [] := by
      refine hlists.sublist (List.Perm.subperm ?_) hlists.txlist
      rw [List.nil_append, ← List.append_assoc]
      exact List.perm_append_singleton ..
    rcases sendPut_cases hv hrun with ⟨-, rfl⟩ | ⟨-, -, rfl⟩ | ⟨-, -, rfl⟩
    · exact ⟨hdrop.setItem hv rfl, hreg.congr rfl (shape_update hv rfl) fun q hq => hq, hscan.goto fun hne => hne⟩
    · exact ⟨hback, hreg.congr rfl (fun _ => rfl) fun q hq => hq, hscan.goto fun hne => hne⟩
    · exact ⟨hdrop, hreg, hscan.goto fun hne => hne⟩
  | @fault t sent p revents hmtx =>
    rw [hmtx] at hlists hreg hscan
    have hback : Lists { s.ep with txlist := p :: s.ep.txlist, rdllist := s.ep.rdllist } [] :=
      hlists.sublist (List.Subperm.refl _) fun hovf => absurd hovf (hscan.scan t sent _ rfl).1
    exact ⟨hback, hreg.congr rfl (fun _ => rfl) fun q hq => hq, hscan.goto fun hne => hne⟩
  | @requeue t sent res m j e threads hmtx ht hrun hwake =>
    rw [hmtx] at hlists hreg hscan
    obtain ⟨e', ps, hyields, hlive, hreq⟩ := hlists.scanRequeue (hscan.scan t sent _ rfl).1
    obtain rfl := hrun.unique hyields
    refine ⟨hreq.lists hlists hlive, hreg.congr hreq.rbr (fun q => ?_) fun q hq => hq, ?_⟩
    · rw [hreq.items, Option.map_map]
      rfl
    · rw [hreq.ovflist]
      have hthreads : Scanner s.ep.ovflist (.scan t sent (.done res)) threads :=
        hscan.congr fun t m j => hwake.scanning
      refine hthreads.requeue fun m' j' => ?_
      unfold epPollSent
      split <;> simp

theorem run_inv {es : List (Event φ τ)} (hrun : Run Step start es s) : s.Inv :=
  Run.invariant (fun _ _ _ hs h => Step.inv h hs) hrun start_inv

/-- What a run may rely on: no item is linked twice, those on a list or on the overflow chain are
    in the tree or being inserted, the chain ends, one thread scans, and the next step of a
    callback or of the scan is no access to an item that is gone. -/
structure Sound (s : System φ τ) : Prop where
  once : (s.mtx.hand ++ s.ep.txlist ++ s.ep.rdllist).Nodup
  owned : ∀ p ∈ s.mtx.hand ++ s.ep.txlist ++ s.ep.rdllist, s.Owned p
  overflow : ∃ ps, s.ep.Overflow ps ∧ ps.Nodup ∧ (∀ p ∈ ps, s.Owned p) ∧
    (∀ p, p ∈ ps ↔ ∃ v, s.ep.items p = some v ∧ v.next ≠ .unactive) ∧
    ((∀ t sent phase, s.mtx ≠ .scan t sent phase) → ps = [])
  keys : ∀ ffd p, s.ep.rbr ffd = some p → ∃ v, s.ep.items p = some v ∧ v.ffd = ffd
  oneScan : ∀ t t' m m' j j', s.threads t = .scanning m j → s.threads t' = .scanning m' j' → t = t'
  callback : ∀ p key, key ∈ s.calls p → ∃ r, s.ep.pollCallback p key = .ok r
  scan : ∀ p ∈ s.mtx.hand, ∃ e, s.ep.sendPut p = .ok e
  requeue : ∀ t sent res, s.mtx = .scan t sent (.done res) → ∃ e, Yields (fun n => s.ep.scanRequeue n) e

/-- Every run of `epoll_ctl`, `epoll_wait` and the callbacks, in any interleaving, is sound. -/
theorem run_sound {es : List (Event φ τ)} (hrun : Run Step start es s) : s.Sound := by
  have h := run_inv hrun
  obtain ⟨ps, hovf, hnodup, hmem, hempty⟩ := h.overflow
  refine ⟨h.lists.nodup, fun p hp => h.owned (h.lists.live p hp),
    ⟨ps, hovf, hnodup, fun p hp => ?_, hmem, hempty⟩, h.registry.rbr, ?_, ?_, ?_, ?_⟩
  · obtain ⟨v, hv, -⟩ := (hmem p).mp hp
    exact h.owned (Option.isSome_of_mem hv)
  · intro t t' m m' j j' ht ht'
    obtain ⟨sent, phase, hmtx⟩ := h.scanner.thread t m j ht
    obtain ⟨sent', phase', hmtx'⟩ := h.scanner.thread t' m' j' ht'
    rw [hmtx] at hmtx'
    cases hmtx'
    rfl
  · intro p key hkey
    obtain ⟨v, hv, -⟩ := h.registry.calls p (List.ne_nil_of_mem hkey)
    exact pollCallback_ok hv key
  · intro p hp
    have hlive := h.lists.live p (List.mem_append_left _ (List.mem_append_left _ hp))
    obtain ⟨v, hv⟩ := Option.isSome_iff_exists.mp hlive
    exact sendPut_ok hv
  · intro t sent res hmtx
    obtain ⟨e, ps, hyields, -⟩ := h.lists.scanRequeue (h.scanner.scan t sent _ hmtx).1
    exact ⟨e, hyields⟩

/-- An item becomes ready while a scan has it on its list, and again it is reported before the
    overflow chain is looked at. -/
def overlap : List (Event Unit Unit) :=
  [.insert 1 ⟨(), 5⟩ ⟨1, 7⟩, .queueProc true, .insertPoll, .insertReady 1, .device () 1 1, .callback 1 1,
    .wait () 4 none, .look () false, .splice (), .device () 1 1, .callback 1 1, .next, .poll 1, .put 1 1, .next,
    .requeue]

theorem overlap_run : ∃ s : System Unit Unit, Run Step start overlap s ∧ s.ep.rdllist = [1] := by
  apply Exists.intro
  apply And.intro
  · apply Run.cons (.insert rfl rfl rfl)
    apply Run.cons (.queueProc rfl rfl)
    apply Run.cons (.insertPoll rfl rfl)
    apply Run.cons (.insertReady rfl rfl (by decide) rfl rfl)
    apply Run.cons (.device (by decide) (.inr (by decide)))
    apply Run.cons (.callback (by decide) rfl (.none nofun))
    apply Run.cons (.wait rfl (by decide))
    apply Run.cons (.look (.inl rfl))
    apply Run.cons (.splice rfl rfl)
    apply Run.cons (.device (by decide) (.inr (by decide)))
    apply Run.cons (.callback (by decide) rfl rfl)
    apply Run.cons (.take rfl rfl rfl (by decide))
    apply Run.cons (.poll rfl rfl)
    apply Run.cons (.put rfl rfl rfl)
    apply Run.cons (.stop rfl rfl (.inl rfl))
    apply Run.cons (.requeue rfl rfl (Yields.of_add 3 fun _ => rfl) (.none nofun))
    exact Run.nil _
  · rfl

theorem run_sound_overlap : ∃ s : System Unit Unit, Run Step start overlap s ∧ s.Sound ∧ s.ep.rdllist = [1] := by
  obtain ⟨s, hrun, hlist⟩ := overlap_run
  exact ⟨s, hrun, run_sound hrun, hlist⟩

end System

end Epoll
