import CtrlrFx.Os.AcqDemo

/-!
# The count that the demo checks

The values under way between the threads of the acquisition demo go up in steps of two from the
counter of the thread that checks them, whichever buffer they are in.
-/

namespace CtrlrFx.Os.AcqDemo
open Base Data Network

variable {A : Type}

/-! ### The values under way -/

/-- Values from `c` on in steps of two, up to `d`. -/
def Steps : UInt16 → List UInt16 → UInt16 → Prop
  | c, [], d => c = d
  | c, x :: xs, d => x = c ∧ Steps (c + 2) xs d

theorem steps_append {c e : UInt16} {xs ys : List UInt16} :
    Steps c (xs ++ ys) e ↔ ∃ d, Steps c xs d ∧ Steps d ys e := by
  induction xs generalizing c with
  | nil =>
    constructor
    · intro h
      exact ⟨c, rfl, h⟩
    · rintro ⟨d, rfl, h⟩
      exact h
  | cons x xs ih =>
    rw [List.cons_append, Steps, ih]
    constructor
    · rintro ⟨hx, d, hxs, hys⟩
      exact ⟨d, ⟨hx, hxs⟩, hys⟩
    · rintro ⟨d, ⟨hx, hxs⟩, hys⟩
      exact ⟨hx, d, hxs, hys⟩

/-- One more value at the end. -/
theorem Steps.snoc {c d : UInt16} {xs : List UInt16} (h : Steps c xs d) :
    Steps c (xs ++ [d]) (d + 2) :=
  steps_append.mpr ⟨d, h, rfl, rfl⟩

/-- What `ProcessThread` makes of the items. -/
def doubled (xs : List UInt16) : List UInt16 := xs.map fun v ↦ v * 2

/-- What is still to come to `CommThread` from the buffer that a thread has. -/
def Place.coming (heap : A → Buffer UInt16) : Stage → Place A → List UInt16
  | .comm, got (some b) => (heap b).mem
  | .comm, working b _ => (heap b).unread
  | .proc, got (some b) => doubled (heap b).mem
  | .proc, working b i => (heap b).mem.take i ++ doubled ((heap b).mem.drop i)
  | .proc, putting b => (heap b).mem
  | .acq, working b i => doubled ((heap b).mem.take i)
  | .acq, putting b => doubled (heap b).mem
  | _, _ => []

/-- What is still to come from a buffer in a queue. -/
def Que.coming (heap : A → Buffer UInt16) : Que → Option A → List UInt16
  | finished, some b => (heap b).mem
  | raw, some b => doubled (heap b).mem
  | _, _ => []

/-- What is still to come from all buffers in a queue. -/
def line (s : St A) (c : Que) : List UInt16 := (s.chan c).flatMap (c.coming s.mem.heap)

/-- What is still to come from the buffer a thread has. -/
def part (s : St A) (t : Stage) : List UInt16 := (s.loc (some t)).coming s.mem.heap t

/-- All values that `CommThread` has not read yet. -/
def stream (s : St A) : List UInt16 :=
  part s .comm ++ line s .finished ++ part s .proc ++ line s .raw ++ part s .acq

/-- A buffer with its items, in write mode. -/
def Full (S : Nat) (b : Buffer UInt16) : Prop := b.pos = S ∧ b.lim = S

/-- How far the buffer is that a thread has. -/
def Place.Fits (S : Nat) (heap : A → Buffer UInt16) : Stage → Place A → Prop
  | .acq, working b i => i ≤ S ∧ (heap b).lim = S
  | .comm, working b _ => (heap b).pos ≤ S ∧ (heap b).lim = S
  | .proc, working b i => i ≤ S ∧ Full S (heap b)
  | .comm, got (some b) | .proc, got (some b) => Full S (heap b)
  | .acq, putting b | .proc, putting b => Full S (heap b)
  | _, _ => True

theorem Place.coming_congr {heap heap' : A → Buffer UInt16} {t : Stage} {l : Place A}
    (h : ∀ b, l.held = some b → heap' b = heap b) : l.coming heap' t = l.coming heap t := by
  cases l with
  | got p =>
    cases p with
    | none => cases t <;> rfl
    | some b =>
      have hb := h b rfl
      cases t <;> simp only [Place.coming, hb]
  | working b i =>
    have hb := h b rfl
    cases t <;> simp only [Place.coming, hb]
  | putting b =>
    have hb := h b rfl
    cases t <;> simp only [Place.coming, hb]
  | _ => cases t <;> rfl

theorem Place.fits_congr {S : Nat} {heap heap' : A → Buffer UInt16} {t : Stage} {l : Place A}
    (h : ∀ b, l.held = some b → heap' b = heap b) : l.Fits S heap' t ↔ l.Fits S heap t := by
  cases l with
  | got p =>
    cases p with
    | none => cases t <;> exact Iff.rfl
    | some b =>
      have hb := h b rfl
      cases t <;> simp only [Place.Fits, hb]
  | working b i =>
    have hb := h b rfl
    cases t <;> simp only [Place.Fits, hb]
  | putting b =>
    have hb := h b rfl
    cases t <;> simp only [Place.Fits, hb]
  | _ => cases t <;> exact Iff.rfl

theorem Que.flatMap_coming_congr {heap heap' : A → Buffer UInt16} (c : Que) {ps : List (Option A)}
    (h : ∀ b, some b ∈ ps → heap' b = heap b) :
    ps.flatMap (c.coming heap') = ps.flatMap (c.coming heap) := by
  apply List.flatMap_congr
  intro p hp
  cases p with
  | none => cases c <;> rfl
  | some b =>
    have hb := h b hp
    cases c <;> simp only [Que.coming, hb]

/-- Every buffer is in one queue or with one thread. -/
def Owned (addrs : List A) (s : St A) : Prop :=
  stock (fun _ ↦ bag) (fun _ l ↦ bag l.held) s = addrs

theorem Owned.effect [DecidableEq A] {addrs : List A} {N : Nat} {s s' : St A} {t : Thread}
    (h : Owned addrs s) (he : Effect code (fun _ ↦ N) s t s') : Owned addrs s' :=
  (balanced.stock_eq he).trans h

/-- What a thread has nobody else has, and it is in no queue. -/
theorem Owned.apart {addrs : List A} {s : St A} (h : Owned addrs s) (hd : addrs.Nodup) {t : Thread}
    {b : A} (hb : (s.loc t).held = some b) :
    b ∈ addrs ∧ (∀ u, u ≠ t → (s.loc u).held ≠ some b) ∧ ∀ c, some b ∉ s.chan c := by
  have hmem : b ∈ bag (s.loc t).held := mem_bag.mpr hb
  have hnd : (stock (fun _ ↦ bag) (fun _ l ↦ bag l.held) s).Nodup := by
    rw [h]
    exact Multiset.coe_nodup.mpr hd
  rcases apart_of_nodup (fun _ ↦ bag) (fun _ (l : Place A) ↦ bag l.held) hnd hmem with
    ⟨hthreads, hques⟩
  refine ⟨?_, fun u hu hub ↦ hthreads u hu (mem_bag.mpr hub), fun c hc ↦ ?_⟩
  · have hle := held_le (fun _ ↦ bag) (fun _ l ↦ bag l.held) s t
    rw [h] at hle
    exact Multiset.mem_coe.mp (Multiset.mem_of_le hle hmem)
  · exact hques c _ hc (mem_bag.mpr rfl)

/-- The buffers hold what they should. -/
structure Values (addrs : List A) (S : Nat) (s : St A) : Prop where
  cap : ∀ a ∈ addrs, (s.mem.heap a).capacity = S
  fits : ∀ t, (s.loc (some t)).Fits S s.mem.heap t
  full : ∀ c b, c ≠ .empty → some b ∈ s.chan c → Full S (s.mem.heap b)
  steps : ¬(s.loc (some .comm)).Over → Steps s.mem.commCtr (stream s) (2 * s.mem.acqCtr)
  errors : s.mem.errors = 0

/-- Thread `t` has moved to `l`, without a change to what another has. -/
structure Moved (s s' : St A) (t : Stage) (l : Place A) : Prop where
  loc : s'.loc = Function.update s.loc (some t) l
  frame : ∀ u, u ≠ t → ∀ b, (s.loc (some u)).held = some b → s'.mem.heap b = s.mem.heap b

namespace Moved

variable {s s' : St A} {t u : Stage} {l : Place A}

theorem loc_self (h : Moved s s' t l) : s'.loc (some t) = l := by
  rw [h.loc, Function.update_self]

theorem loc_other (h : Moved s s' t l) (hu : u ≠ t) : s'.loc (some u) = s.loc (some u) := by
  rw [h.loc, Function.update_of_ne fun he ↦ hu (Option.some.inj he)]

theorem fits {S : Nat} (h : Moved s s' t l) (hf : ∀ u, (s.loc (some u)).Fits S s.mem.heap u)
    (hl : l.Fits S s'.mem.heap t) (u : Stage) : (s'.loc (some u)).Fits S s'.mem.heap u := by
  by_cases hu : u = t
  · subst hu
    rwa [h.loc_self]
  · rw [h.loc_other hu, Place.fits_congr (h.frame u hu)]
    exact hf u

theorem part_self (h : Moved s s' t l) : part s' t = l.coming s'.mem.heap t := by
  rw [part, h.loc_self]

theorem part_other (h : Moved s s' t l) (hu : u ≠ t) : part s' u = part s u := by
  rw [part, h.loc_other hu, Place.coming_congr (h.frame u hu), part]

end Moved

theorem line_congr {s s' : St A} {c : Que} (hc : s'.chan c = s.chan c)
    (hh : ∀ b, some b ∈ s.chan c → s'.mem.heap b = s.mem.heap b) : line s' c = line s c := by
  rw [line, hc, Que.flatMap_coming_congr c hh, line]

/-- Nothing comes from empty buffers. -/
theorem line_empty (s : St A) : line s .empty = [] := by
  apply List.flatMap_eq_nil_iff.mpr
  intro p _
  cases p <;> rfl

/-- Every thread with the queue before it. -/
theorem stream_source (s : St A) : stream s =
    (part s .comm ++ line s Stage.comm.source) ++ (part s .proc ++ line s Stage.proc.source) ++
      (part s .acq ++ line s Stage.acq.source) := by
  change _ = _ ++ _ ++ (part s .acq ++ line s .empty)
  rw [line_empty, List.append_nil, ← List.append_assoc]
  rfl

/-- Every thread with the queue behind it. -/
theorem stream_target (s : St A) : stream s =
    (line s Stage.comm.target ++ part s .comm) ++ (line s Stage.proc.target ++ part s .proc) ++
      (line s Stage.acq.target ++ part s .acq) := by
  change _ = (line s .empty ++ part s .comm) ++ _ ++ _
  rw [line_empty, List.nil_append, ← List.append_assoc, ← List.append_assoc]
  rfl

theorem Place.coming_got (heap : A → Buffer UInt16) (t : Stage) (p : Option A) :
    (got p).coming heap t = t.source.coming heap p := by
  cases p <;> cases t <;> rfl

theorem Place.coming_putting (heap : A → Buffer UInt16) (t : Stage) (b : A) :
    (putting b).coming heap t = t.target.coming heap (some b) := by
  cases t <;> rfl

theorem Stage.source_injective : Function.Injective Stage.source := by
  intro t u h
  revert h
  cases t <;> cases u <;> decide

/-- What the threads share besides their flags is the same. -/
structure Mem.Same (m m' : Mem A) : Prop where
  heap : m'.heap = m.heap
  acqCtr : m'.acqCtr = m.acqCtr
  commCtr : m'.commCtr = m.commCtr
  errors : m'.errors = m.errors

theorem Mem.Same.refl (m : Mem A) : m.Same m := ⟨rfl, rfl, rfl, rfl⟩

/-- Thread `t` has moved to `l` and may have changed the buffer that it has. -/
structure Touched (s s' : St A) (t : Stage) (l : Place A) (b : A) : Prop where
  loc : s'.loc = Function.update s.loc (some t) l
  chan : s'.chan = s.chan
  heap : ∀ a, a ≠ b → s'.mem.heap a = s.mem.heap a

section Touched

variable {addrs : List A} {s s' : St A} {t : Stage} {l : Place A} {b : A}

theorem Touched.moved (h : Touched s s' t l b) (ho : Owned addrs s) (hd : addrs.Nodup)
    (hb : (s.loc (some t)).held = some b) : Moved s s' t l := by
  refine ⟨h.loc, ?_⟩
  intro u hu a ha
  apply h.heap
  rintro rfl
  exact (ho.apart hd hb).2.1 (some u) (fun he ↦ hu (Option.some.inj he)) ha

theorem Touched.heap_of_mem (h : Touched s s' t l b) (ho : Owned addrs s) (hd : addrs.Nodup)
    (hb : (s.loc (some t)).held = some b) {c : Que} {a : A} (ha : some a ∈ s.chan c) :
    s'.mem.heap a = s.mem.heap a := by
  apply h.heap
  rintro rfl
  exact (ho.apart hd hb).2.2 c ha

theorem Touched.line_eq (h : Touched s s' t l b) (ho : Owned addrs s) (hd : addrs.Nodup)
    (hb : (s.loc (some t)).held = some b) (c : Que) : line s' c = line s c :=
  line_congr (congrFun h.chan c) fun _ ↦ h.heap_of_mem ho hd hb

/-- Only what is to come from that buffer may be different. -/
theorem Touched.stream_eq (h : Touched s s' t l b) (ho : Owned addrs s) (hd : addrs.Nodup)
    (hb : (s.loc (some t)).held = some b) (hp : part s' t = part s t) : stream s' = stream s := by
  have hpart (u : Stage) : part s' u = part s u := by
    by_cases hu : u = t
    · rw [hu, hp]
    · exact (h.moved ho hd hb).part_other hu
  simp only [stream, hpart, h.line_eq ho hd hb]

/-- The last values are those of `AcqThread`. -/
theorem Touched.stream_acq (h : Touched s s' .acq l b) (ho : Owned addrs s) (hd : addrs.Nodup)
    (hb : (s.loc (some .acq)).held = some b) : ∃ xs, stream s = xs ++ part s .acq ∧
      stream s' = xs ++ l.coming s'.mem.heap .acq := by
  have hm := h.moved ho hd hb
  refine ⟨part s .comm ++ line s .finished ++ part s .proc ++ line s .raw, rfl, ?_⟩
  rw [stream, hm.part_self, hm.part_other (u := .comm) nofun, hm.part_other (u := .proc) nofun,
    h.line_eq ho hd hb, h.line_eq ho hd hb]

/-- The next values are those of `CommThread`. -/
theorem Touched.stream_comm (h : Touched s s' .comm l b) (ho : Owned addrs s) (hd : addrs.Nodup)
    (hb : (s.loc (some .comm)).held = some b) : ∃ xs, stream s = part s .comm ++ xs ∧
      stream s' = l.coming s'.mem.heap .comm ++ xs := by
  have hm := h.moved ho hd hb
  refine ⟨line s .finished ++ part s .proc ++ line s .raw ++ part s .acq, ?_, ?_⟩
  · simp only [stream, List.append_assoc]
  · rw [stream, hm.part_self, hm.part_other (u := .acq) nofun, hm.part_other (u := .proc) nofun,
      h.line_eq ho hd hb, h.line_eq ho hd hb]
    simp only [List.append_assoc]

end Touched

/-! ### The loops over the items -/

theorem doubled_append (xs ys : List UInt16) : doubled (xs ++ ys) = doubled xs ++ doubled ys :=
  List.map_append

/-- The next item of `AcqThread`. -/
theorem doubled_take_set {xs : List UInt16} {i : Nat} (hi : i < xs.length) (v : UInt16) :
    doubled ((xs.set i v).take (i + 1)) = doubled (xs.take i) ++ [2 * v] := by
  rw [List.take_succ_eq_append_getElem (by rwa [List.length_set]), List.take_set_of_le le_rfl,
    List.getElem_set_self, doubled_append, UInt16.mul_comm]
  rfl

/-- What is to come does not depend on how far `ProcessThread` is. -/
theorem doubled_modify {xs : List UInt16} {i : Nat} (hi : i < xs.length) :
    (xs.modify i fun v ↦ v * 2).take (i + 1) ++ doubled ((xs.modify i fun v ↦ v * 2).drop (i + 1)) =
      xs.take i ++ doubled (xs.drop i) := by
  have hlen : (xs.take i ++ [xs[i] * 2]).length = i + 1 := by
    rw [List.length_append, List.length_take_of_le (Nat.le_of_lt hi), List.length_singleton]
  have hmod : (xs.modify i fun v ↦ v * 2) = (xs.take i ++ [xs[i] * 2]) ++ xs.drop (i + 1) := by
    rw [List.modify_eq_take_cons_drop hi, List.append_assoc]
    rfl
  rw [hmod, List.take_left' hlen, List.drop_left' hlen, List.drop_eq_getElem_cons hi,
    List.append_assoc]
  rfl

namespace Values

variable {addrs : List A} {S : Nat} {s s' : St A} {t : Stage} {l : Place A}

/-- What `main` does leaves the buffers alone. -/
theorem congr (h : Values addrs S s) (hl : ∀ u, s'.loc (some u) = s.loc (some u))
    (hc : s'.chan = s.chan) (hm : s.mem.Same s'.mem) : Values addrs S s' := by
  have hpart (u : Stage) : part s' u = part s u := by rw [part, hl, hm.heap, part]
  have hline (c : Que) : line s' c = line s c := by rw [line, hc, hm.heap, line]
  refine ⟨?_, ?_, ?_, ?_, hm.errors.trans h.errors⟩
  · rw [hm.heap]
    exact h.cap
  · intro u
    rw [hl, hm.heap]
    exact h.fits u
  · rw [hc, hm.heap]
    exact h.full
  · rw [hl, hm.commCtr, hm.acqCtr]
    simp only [stream, hpart, hline]
    exact h.steps

/-- A thread that moves on with what it has, or passes it on. -/
theorem pass (h : Values addrs S s) (hl : s'.loc = Function.update s.loc (some t) l)
    (hm : s.mem.Same s'.mem) (hfit : l.Fits S s.mem.heap t)
    (hfull : ∀ c b, c ≠ .empty → some b ∈ s'.chan c → Full S (s.mem.heap b))
    (hs : ¬(s'.loc (some .comm)).Over → ¬(s.loc (some .comm)).Over ∧ stream s' = stream s) :
    Values addrs S s' := by
  have hmoved : Moved s s' t l := ⟨hl, fun _ _ _ _ ↦ by rw [hm.heap]⟩
  refine ⟨?_, hmoved.fits h.fits (by rwa [hm.heap]), ?_, ?_, hm.errors.trans h.errors⟩
  · rw [hm.heap]
    exact h.cap
  · rw [hm.heap]
    exact hfull
  · intro hover
    rcases hs hover with ⟨hover, hstream⟩
    rw [hm.commCtr, hm.acqCtr, hstream]
    exact h.steps hover

/-- The thread that checks the count does not come back once it is behind its loop. -/
theorem over_of_update (hl : s'.loc = Function.update s.loc (some t) l)
    (hn : ¬(s.loc (some t)).Over) (ho : (s.loc (some .comm)).Over) :
    (s'.loc (some .comm)).Over := by
  have hu : some .comm ≠ some t := by
    intro he
    rw [he] at ho
    exact hn ho
  rwa [hl, Function.update_of_ne hu]

/-- A thread that takes a buffer out of its queue. -/
theorem get (h : Values addrs S s) {p : Option A} {ps : List (Option A)}
    (hp : s.loc (some t) = .getting) (hc : s.chan t.source = p :: ps) :
    Values addrs S ((s.setChan t.source ps).goTo (some t) (.got p)) := by
  have hn : ¬(s.loc (some t)).Over := by rw [hp]; exact id
  have hm : Moved s ((s.setChan t.source ps).goTo (some t) (.got p)) t (.got p) :=
    ⟨rfl, fun _ _ _ _ ↦ rfl⟩
  refine h.pass (t := t) rfl (.refl _) ?_ ?_ fun hover ↦
    ⟨fun ho ↦ hover (over_of_update rfl hn ho), ?_⟩
  · cases p with
    | none => cases t <;> trivial
    | some b =>
      have hmem : some b ∈ s.chan t.source := by
        rw [hc]
        exact List.mem_cons_self
      cases t with
      | acq => trivial
      | proc => exact h.full .raw b nofun hmem
      | comm => exact h.full .finished b nofun hmem
  · intro c b hne hb
    apply h.full c b hne
    change some b ∈ Function.update s.chan t.source ps c at hb
    by_cases hct : c = t.source
    · subst hct
      rw [Function.update_self] at hb
      rw [hc]
      exact List.mem_cons_of_mem _ hb
    · rwa [Function.update_of_ne hct] at hb
  · have hall (u : Stage) : part ((s.setChan t.source ps).goTo (some t) (.got p)) u ++
        line ((s.setChan t.source ps).goTo (some t) (.got p)) u.source =
          part s u ++ line s u.source := by
      by_cases hu : u = t
      · subst hu
        have hpart : part s u = [] := by
          rw [part, hp]
          cases u <;> rfl
        rw [hm.part_self, Place.coming_got, hpart, List.nil_append, line, line, hc,
          List.flatMap_cons, State.chan_goTo, State.chan_setChan, Function.update_self]
        rfl
      · have hne : u.source ≠ t.source := fun he ↦ hu (Stage.source_injective he)
        rw [hm.part_other hu]
        congr 1
        exact line_congr (Function.update_of_ne hne ..) fun _ _ ↦ rfl
    rw [stream_source, hall, hall, hall, stream_source]

/-- A thread that puts its buffer into the next queue. -/
theorem put (h : Values addrs S s) {b : A} (hp : s.loc (some t) = .putting b) :
    Values addrs S ((s.setChan t.target (s.chan t.target ++ [some b])).goTo (some t) .top) := by
  have hn : ¬(s.loc (some t)).Over := by rw [hp]; exact id
  have hm : Moved s ((s.setChan t.target (s.chan t.target ++ [some b])).goTo (some t) .top) t
      .top := ⟨rfl, fun _ _ _ _ ↦ rfl⟩
  have hfit := h.fits t
  rw [hp] at hfit
  refine h.pass (t := t) rfl (.refl _) ?_ ?_ fun hover ↦
    ⟨fun ho ↦ hover (over_of_update rfl hn ho), ?_⟩
  · cases t <;> trivial
  · intro c a hne ha
    change some a ∈ Function.update s.chan t.target (s.chan t.target ++ [some b]) c at ha
    by_cases hct : c = t.target
    · subst hct
      rw [Function.update_self, List.mem_append, List.mem_singleton] at ha
      rcases ha with ha | ⟨⟨⟩⟩
      · exact h.full _ a hne ha
      · cases t with
        | comm => exact absurd rfl hne
        | proc | acq => exact hfit
    · rw [Function.update_of_ne hct] at ha
      exact h.full c a hne ha
  · have hall (u : Stage) :
        line ((s.setChan t.target (s.chan t.target ++ [some b])).goTo (some t) .top) u.target ++
          part ((s.setChan t.target (s.chan t.target ++ [some b])).goTo (some t) .top) u =
            line s u.target ++ part s u := by
      by_cases hu : u = t
      · subst hu
        have htop : Place.coming s.mem.heap u (.top : Place A) = [] := by cases u <;> rfl
        have hpart : part s u = u.target.coming s.mem.heap (some b) := by
          rw [part, hp, Place.coming_putting]
        rw [hm.part_self, hpart, line, line, State.chan_goTo, State.chan_setChan,
          Function.update_self, List.flatMap_append, List.flatMap_singleton]
        exact (congrArg _ htop).trans (List.append_nil _)
      · have hne : u.target ≠ t.target := fun he ↦ hu (Stage.target_injective he)
        rw [hm.part_other hu]
        congr 1
        exact line_congr (Function.update_of_ne hne ..) fun _ _ ↦ rfl
    rw [stream_target, hall, hall, hall, stream_target]

/-- A thread that quits: by then nobody checks the count. -/
theorem halt (h : Values addrs S s) (hk : Control s) (hq : s.mem.quit t = true)
    (hl : s'.loc = Function.update s.loc (some t) l) (hm : s.mem.Same s'.mem)
    (hfit : l.Fits S s.mem.heap t) (hc : ∀ c b, some b ∈ s'.chan c → some b ∈ s.chan c)
    (ho : t = .comm → l.Over) : Values addrs S s' := by
  refine h.pass hl hm hfit (fun c b hne hb ↦ h.full c b hne (hc c b hb)) fun hover ↦ ?_
  by_cases ht : t = .comm
  · subst ht
    rw [hl, Function.update_self] at hover
    exact absurd (ho rfl) hover
  · rw [hl, Function.update_of_ne fun he ↦ ht (Option.some.inj he).symm] at hover
    exact absurd (hk.over_of_quit hq (by cases t <;> [exact absurd rfl ht; decide; decide])) hover

/-- A thread that works on the buffer that it has. -/
theorem touch (h : Values addrs S s) {b : A} (ht : Touched s s' t l b) (ho : Owned addrs s)
    (hd : addrs.Nodup) (hb : (s.loc (some t)).held = some b)
    (hcap : (s'.mem.heap b).capacity = S) (hfit : l.Fits S s'.mem.heap t)
    (hs : ¬(s'.loc (some .comm)).Over → Steps s'.mem.commCtr (stream s') (2 * s'.mem.acqCtr))
    (he : s'.mem.errors = 0) : Values addrs S s' := by
  refine ⟨?_, (ht.moved ho hd hb).fits h.fits hfit, ?_, hs, he⟩
  · intro a ha
    by_cases hab : a = b
    · rw [hab, hcap]
    · rw [ht.heap a hab, h.cap a ha]
  · intro c a hc ha
    rw [ht.chan] at ha
    rw [ht.heap_of_mem ho hd hb ha]
    exact h.full c a hc ha

/-- A thread that works on the buffer that it has without counting on. -/
theorem keep (h : Values addrs S s) {b : A} (ht : Touched s s' t l b) (ho : Owned addrs s)
    (hd : addrs.Nodup) (hb : (s.loc (some t)).held = some b) (hn : ¬(s.loc (some t)).Over)
    (hcap : (s'.mem.heap b).capacity = S) (hfit : l.Fits S s'.mem.heap t)
    (hpart : l.coming s'.mem.heap t = part s t) (ha : s'.mem.acqCtr = s.mem.acqCtr)
    (hc : s'.mem.commCtr = s.mem.commCtr) (he : s'.mem.errors = s.mem.errors) :
    Values addrs S s' := by
  refine h.touch ht ho hd hb hcap hfit (fun hover ↦ ?_) (he.trans h.errors)
  have hpart' : part s' t = part s t := (ht.moved ho hd hb).part_self.trans hpart
  rw [ha, hc, ht.stream_eq ho hd hb hpart']
  exact h.steps fun hold ↦ hover (over_of_update ht.loc hn hold)

variable [DecidableEq A]

/-- A buffer in its thread's hands holds what it held in the queue. -/
theorem enter (h : Values addrs S s) (ho : Owned addrs s) (hd : addrs.Nodup) {b : A}
    (hp : s.loc (some t) = .got (some b)) :
    Values addrs S { s.goTo (some t) (.working b 0) with mem := s.mem.enter b t } := by
  have hb : (s.loc (some t)).held = some b := by rw [hp]; rfl
  have hn : ¬(s.loc (some t)).Over := by rw [hp]; exact id
  have hcap := h.cap b (ho.apart hd hb).1
  have hfit := h.fits t
  have hpart : (Place.got (some b)).coming s.mem.heap t = part s t := by rw [part, hp]
  rw [hp] at hfit
  cases t with
  | acq =>
    refine h.keep (b := b) ⟨rfl, rfl, fun a ha ↦ Function.update_of_ne ha ..⟩ ho hd hb hn ?_ ?_
      hpart rfl rfl rfl
    · change ((s.mem.setBuf b (s.mem.heap b).clear).heap b).capacity = S
      rw [Mem.heap_setBuf, Buffer.capacity_clear, hcap]
    · change 0 ≤ S ∧ ((s.mem.setBuf b (s.mem.heap b).clear).heap b).lim = S
      rw [Mem.heap_setBuf]
      exact ⟨Nat.zero_le _, hcap⟩
  | proc =>
    refine h.keep (b := b) ⟨rfl, rfl, fun a _ ↦ rfl⟩ ho hd hb hn hcap ?_ hpart rfl rfl rfl
    exact ⟨Nat.zero_le _, hfit⟩
  | comm =>
    refine h.keep (b := b) ⟨rfl, rfl, fun a ha ↦ Function.update_of_ne ha ..⟩ ho hd hb hn ?_ ?_ ?_
      rfl rfl rfl
    · change ((s.mem.setBuf b (s.mem.heap b).flip).heap b).capacity = S
      rw [Mem.heap_setBuf, Buffer.capacity_flip, hcap]
    · change ((s.mem.setBuf b (s.mem.heap b).flip).heap b).pos ≤ S ∧
        ((s.mem.setBuf b (s.mem.heap b).flip).heap b).lim = S
      rw [Mem.heap_setBuf]
      exact ⟨Nat.zero_le _, hfit.1⟩
    · rw [← hpart]
      change ((s.mem.setBuf b (s.mem.heap b).flip).heap b).unread = (s.mem.heap b).mem
      rw [Mem.heap_setBuf, Buffer.unread_flip, Buffer.written, hfit.1]
      exact List.take_of_length_le (Nat.le_of_eq hcap)

/-- The acquisition thread counts on. -/
theorem loop_acq (h : Values addrs S s) (ho : Owned addrs s) (hd : addrs.Nodup) {b : A} {i : Nat}
    (hp : s.loc (some .acq) = .working b i) :
    Values addrs S { s.goTo (some .acq) (s.mem.loop b i .acq).1 with
      mem := (s.mem.loop b i .acq).2 } := by
  have hb : (s.loc (some .acq)).held = some b := by rw [hp]; rfl
  have hn : ¬(s.loc (some .acq)).Over := by rw [hp]; exact id
  have hcap := h.cap b (ho.apart hd hb).1
  have hfit := h.fits .acq
  have hpart : (Place.working b i).coming s.mem.heap .acq = part s .acq := by rw [part, hp]
  rw [hp] at hfit
  rcases hfit with ⟨hi, hlim⟩
  dsimp only [Mem.loop]
  by_cases hlt : i < (s.mem.heap b).capacity
  · rw [if_pos hlt]
    have htouch : Touched s { s.goTo (some .acq) (.working b (i + 1)) with
        mem :=
          { s.mem.setBuf b { s.mem.heap b with mem := (s.mem.heap b).mem.set i s.mem.acqCtr } with
            acqCtr := s.mem.acqCtr + 1 } } .acq (.working b (i + 1)) b :=
      ⟨rfl, rfl, fun a ha ↦ Function.update_of_ne ha ..⟩
    refine h.touch htouch ho hd hb ?_ ⟨by omega, ?_⟩ (fun hover ↦ ?_) h.errors
    · dsimp only
      rw [Mem.heap_setBuf, Buffer.capacity, List.length_set]
      exact hcap
    · dsimp only
      rw [Mem.heap_setBuf]
      exact hlim
    · rcases htouch.stream_acq ho hd hb with ⟨xs, hx, hx'⟩
      have hsteps := h.steps hover
      rw [hx, ← hpart] at hsteps
      rw [hx']
      dsimp only [Place.coming]
      rw [Mem.heap_setBuf, doubled_take_set hlt, ← List.append_assoc, UInt16.mul_add]
      exact hsteps.snoc
  · rw [if_neg hlt]
    refine h.keep (b := b) ⟨rfl, rfl, fun a ha ↦ Function.update_of_ne ha ..⟩ ho hd hb hn ?_ ?_ ?_
      rfl rfl rfl
    · dsimp only
      rw [Mem.heap_setBuf]
      exact hcap
    · dsimp only [Place.Fits, Full]
      rw [Mem.heap_setBuf]
      exact ⟨hcap, hlim⟩
    · rw [← hpart]
      dsimp only [Place.coming]
      rw [Mem.heap_setBuf, List.take_of_length_le (Nat.not_lt.mp hlt)]

/-- The values stay the same while they are doubled. -/
theorem loop_proc (h : Values addrs S s) (ho : Owned addrs s) (hd : addrs.Nodup) {b : A} {i : Nat}
    (hp : s.loc (some .proc) = .working b i) :
    Values addrs S { s.goTo (some .proc) (s.mem.loop b i .proc).1 with
      mem := (s.mem.loop b i .proc).2 } := by
  have hb : (s.loc (some .proc)).held = some b := by rw [hp]; rfl
  have hn : ¬(s.loc (some .proc)).Over := by rw [hp]; exact id
  have hcap := h.cap b (ho.apart hd hb).1
  have hfit := h.fits .proc
  have hpart : (Place.working b i).coming s.mem.heap .proc = part s .proc := by rw [part, hp]
  rw [hp] at hfit
  rcases hfit with ⟨hi, hfull⟩
  dsimp only [Mem.loop]
  by_cases hlt : i < (s.mem.heap b).size
  · rw [if_pos hlt]
    rw [Buffer.size, hfull.2] at hlt
    refine h.keep (b := b) ⟨rfl, rfl, fun a ha ↦ Function.update_of_ne ha ..⟩ ho hd hb hn ?_ ?_ ?_
      rfl rfl rfl
    · dsimp only
      rw [Mem.heap_setBuf, Buffer.capacity, List.length_modify]
      exact hcap
    · refine ⟨hlt, ?_⟩
      dsimp only
      rw [Mem.heap_setBuf]
      exact hfull
    · rw [← hpart]
      dsimp only [Place.coming]
      rw [Mem.heap_setBuf]
      exact doubled_modify (Nat.lt_of_lt_of_eq hlt hcap.symm)
  · rw [if_neg hlt]
    rw [Buffer.size, hfull.2, ← hcap] at hlt
    have hlen := Nat.not_lt.mp hlt
    refine h.keep (b := b) ⟨rfl, rfl, fun _ _ ↦ rfl⟩ ho hd hb hn hcap hfull ?_ rfl rfl rfl
    rw [← hpart]
    dsimp only [Place.coming]
    rw [List.take_of_length_le hlen, List.drop_of_length_le hlen]
    exact (List.append_nil _).symm

/-- The value that the communications thread reads is the one it expects. -/
theorem loop_comm (h : Values addrs S s) (ho : Owned addrs s) (hd : addrs.Nodup) {b : A} {i : Nat}
    (hp : s.loc (some .comm) = .working b i) :
    (s.mem.loop b i .comm).1 ≠ .crashed (some b) ∧
      Values addrs S { s.goTo (some .comm) (s.mem.loop b i .comm).1 with
        mem := (s.mem.loop b i .comm).2 } := by
  have hb : (s.loc (some .comm)).held = some b := by rw [hp]; rfl
  have hn : ¬(s.loc (some .comm)).Over := by rw [hp]; exact id
  have hcap := h.cap b (ho.apart hd hb).1
  have hfit := h.fits .comm
  have hpart : (s.mem.heap b).unread = part s .comm := by
    rw [part, hp]
    rfl
  rw [hp] at hfit
  rcases hfit with ⟨hpos, hlim⟩
  have hle : (s.mem.heap b).pos ≤ (s.mem.heap b).lim := by omega
  dsimp only [Mem.loop]
  rw [Buffer.available_of_le hle]
  by_cases hz : (s.mem.heap b).lim - (s.mem.heap b).pos = 0
  · rw [if_pos hz]
    refine ⟨fun he ↦ ?_, ?_⟩
    · cases he
    refine h.keep (b := b) ⟨rfl, rfl, fun a ha ↦ Function.update_of_ne ha ..⟩ ho hd hb hn ?_ trivial
      ?_ rfl rfl rfl
    · dsimp only
      rw [Mem.heap_setBuf]
      exact hcap
    · rw [← hpart, Buffer.unread, hz, Block.read_zero]
      rfl
  · rw [if_neg hz]
    have hlt : (s.mem.heap b).pos < (s.mem.heap b).mem.length := by
      rw [Buffer.capacity] at hcap
      omega
    obtain ⟨v, hv⟩ : ∃ v, (s.mem.heap b).mem[(s.mem.heap b).pos] = v := ⟨_, rfl⟩
    obtain ⟨buf, hbuf⟩ : ∃ buf, { s.mem.heap b with pos := (s.mem.heap b).pos + 1 } = buf :=
      ⟨_, rfl⟩
    have hget : (s.mem.heap b).get = some (v, buf) := by
      rw [Buffer.get, List.getElem?_eq_getElem hlt, hv, ← hbuf, Option.map_some]
    have hunread : (s.mem.heap b).unread = v :: buf.unread := by
      have hs : (s.mem.heap b).lim - (s.mem.heap b).pos =
          (s.mem.heap b).lim - ((s.mem.heap b).pos + 1) + 1 := by omega
      rw [Buffer.unread, hs, Block.read_succ _ _ _ hlt, hv, ← hbuf]
      rfl
    rw [hget]
    dsimp only
    have hsteps := h.steps hn
    have htouch (l : Place A) (ctr : UInt16) : Touched s { s.goTo (some .comm) l with
        mem := { s.mem.setBuf b buf with commCtr := ctr } } .comm l b :=
      ⟨rfl, rfl, fun a ha ↦ Function.update_of_ne ha ..⟩
    rcases (htouch (.working b (i + 1)) (s.mem.commCtr + 2)).stream_comm ho hd hb with
      ⟨xs, hx, hx'⟩
    rw [hx, ← hpart, hunread] at hsteps
    rw [if_neg fun hne ↦ hne hsteps.1.symm]
    refine ⟨fun he ↦ ?_, h.touch (htouch _ _) ho hd hb ?_ ⟨?_, ?_⟩ (fun _ ↦ ?_) h.errors⟩
    · cases he
    · dsimp only
      rw [Mem.heap_setBuf, ← hbuf]
      exact hcap
    · dsimp only
      rw [Mem.heap_setBuf, ← hbuf]
      dsimp only
      omega
    · dsimp only
      rw [Mem.heap_setBuf, ← hbuf]
      exact hlim
    · rw [hx']
      dsimp only [Place.coming]
      rw [Mem.heap_setBuf]
      exact hsteps.2

/-- The loops run on what is there. -/
theorem no_crash (h : Values addrs S s) (ho : Owned addrs s) (hd : addrs.Nodup) {b : A} {i : Nat}
    (hp : s.loc (some t) = .working b i) : (s.mem.loop b i t).1 ≠ .crashed (some b) := by
  cases t with
  | acq =>
    dsimp only [Mem.loop]
    split <;> nofun
  | proc =>
    dsimp only [Mem.loop]
    split <;> nofun
  | comm => exact (h.loop_comm ho hd hp).1

theorem step {N : Nat} (h : Values addrs S s) (hk : Control s) (ho : Owned addrs s)
    (hd : addrs.Nodup) (hs : Step N s s') : Values addrs S s' := by
  have hmain (m : Main) (u : Stage) :
      Function.update s.loc none (Place.main m) (some u) = s.loc (some u) :=
    Function.update_of_ne (Option.some_ne_none u) ..
  cases hs with
  | key hp => exact h.congr (hmain (.quitting .comm)) rfl (.refl _)
  | @quit t hp => exact h.congr (hmain (.waiting t)) rfl ⟨rfl, rfl, rfl, rfl⟩
  | @joined t hp _ => exact h.congr (hmain (.next t)) rfl (.refl _)
  | @enough t hp hq =>
    refine h.halt hk hq rfl (.refl _) ?_ (fun _ _ ↦ id) ?_
    · cases t <;> trivial
    · rintro rfl
      trivial
  | @again t hp hq =>
    have hn : ¬(s.loc (some t)).Over := by rw [hp]; exact id
    have hm : Moved s (s.goTo (some t) .getting) t .getting := ⟨rfl, fun _ _ _ _ ↦ rfl⟩
    refine h.pass (t := t) rfl (.refl _) ?_ h.full fun hover ↦
      ⟨fun hold ↦ hover (over_of_update rfl hn hold), ?_⟩
    · cases t <;> trivial
    · have hall (u : Stage) : part (s.goTo (some t) .getting) u = part s u := by
        by_cases hu : u = t
        · subst hu
          rw [hm.part_self, part, hp]
          cases u <;> rfl
        · exact hm.part_other hu
      rw [stream, hall, hall, hall]
      rfl
  | get hp hc => exact h.get hp hc
  | @drop t p hp hq =>
    refine h.halt hk hq rfl (.refl _) ?_ (fun _ _ ↦ id) ?_
    · cases t <;> trivial
    · rintro rfl
      trivial
  | @null t hp hq => exact absurd rfl (hk.at_place hp).2
  | @enter t b hp hq => exact h.enter ho hd hp
  | @loop t b i hp =>
    cases t with
    | acq => exact h.loop_acq ho hd hp
    | proc => exact h.loop_proc ho hd hp
    | comm => exact (h.loop_comm ho hd hp).2
  | put hp hr => exact h.put hp
  | @release t p hp hr =>
    refine h.halt hk (hk.at_place hp).2.1 rfl (.refl _) ?_ (fun c b hb ↦ ?_) ?_
    · cases t <;> trivial
    · change some b ∈ Function.update s.chan t.target (s.chan t.target ++ [none]) c at hb
      by_cases hct : c = t.target
      · subst hct
        rw [Function.update_self, List.mem_append, List.mem_singleton] at hb
        exact hb.resolve_right nofun
      · rwa [Function.update_of_ne hct] at hb
    · rintro rfl
      trivial
  | @finish t p hp =>
    refine h.halt hk (hk.at_place hp).2 rfl ⟨rfl, rfl, rfl, rfl⟩ ?_ (fun _ _ ↦ id) fun _ ↦ trivial
    cases t <;> trivial

end Values

end CtrlrFx.Os.AcqDemo
