import CtrlrFx.Base.Machine
import CtrlrFx.Base.Words
import Mathlib.Data.UInt

/-!
# Sequence lock

`CtrlrFx/SeqLock.h`: a counter that the one writer increments before and behind each update.
A reader copies the data word by word and keeps the copy if the counter is even and the same
behind the copying as before. The class has no constructor, so that the counter starts with
whatever its memory holds.
-/

namespace CtrlrFx.Os
open Base

/-- The counter is a 32-bit `int`, whose bits are kept here; `CtrlrFx/SeqLock.h:23`. -/
structure SeqLock where
  ctr : UInt32
  deriving DecidableEq, Repr

namespace SeqLock

/-- `CtrlrFx/SeqLock.h:27`. -/
def writeLock (l : SeqLock) : SeqLock := { ctr := l.ctr + 1 }

/-- `CtrlrFx/SeqLock.h:30`. -/
def writeUnlock (l : SeqLock) : SeqLock := { ctr := l.ctr + 1 }

/-- `CtrlrFx/SeqLock.h:41`. -/
def readBegin (l : SeqLock) : UInt32 := l.ctr

/-- `CtrlrFx/SeqLock.h:53–56`. -/
def readRetry (l : SeqLock) (ctr : UInt32) : Bool := ctr &&& 1 != 0 || ctr != l.ctr

theorem readRetry_eq_false {l : SeqLock} {c : UInt32} :
    l.readRetry c = false ↔ c.toNat % 2 = 0 ∧ c = l.ctr := by
  have hand : (c &&& 1 != 0) = false ↔ c.toNat % 2 = 0 := by
    rw [bne_eq_false_iff_eq, ← UInt32.toNat_inj, UInt32.toNat_and]
    exact (Nat.and_one_is_mod c.toNat).congr_left
  rw [readRetry, Bool.or_eq_false_iff, hand, bne_eq_false_iff_eq]

/-! ### Readers and the writer -/

/-- Where a reader is: outside, or behind `read_begin`, with its result, the words that were
copied so far, and the number of increments of the counter before. -/
inductive Reader (n : Nat) (W : Type) where
  | idle
  | reading (ctr : UInt32) (copy : Fin n → Option W) (before : Nat)

/-- A lock with the words it guards, the readers and whether the writer is in an update. Counted
are the increments so far, and kept are the values of the words before the first update and
behind each completed one. -/
structure Sys (n : Nat) (W Rid : Type) where
  lock : SeqLock
  data : Fin n → W
  writing : Bool
  readers : Rid → Reader n W
  ticks : Nat
  values : List (Fin n → W)

variable {n : Nat} {W Rid : Type}

/-- Steps of the writer and the readers: the calls of the lock, and single words written and
copied, in any order. -/
inductive Act (n : Nat) (W Rid : Type) where
  | writeLock
  | writeWord (i : Fin n) (v : W)
  | writeUnlock
  | readBegin (r : Rid)
  | readWord (r : Rid) (i : Fin n)
  | leave (r : Rid)

/-- Number of updates begun in so many increments. -/
def begun (ticks : Nat) : Nat := (ticks + 1) / 2

namespace Sys

variable [DecidableEq Rid]

/-- A reader moves. -/
def moveTo (s : Sys n W Rid) (r : Rid) (x : Reader n W) : Sys n W Rid :=
  { s with readers := Function.update s.readers r x }

@[simp] theorem readers_moveTo (s : Sys n W Rid) (r : Rid) (x : Reader n W) :
    (s.moveTo r x).readers = Function.update s.readers r x := rfl

/-- One step. A reader leaves behind `read_retry`, whatever that says. -/
def step (s : Sys n W Rid) : Act n W Rid → Option (Sys n W Rid)
  | .writeLock =>
    if s.writing then none
    else some { s with lock := s.lock.writeLock, writing := true, ticks := s.ticks + 1 }
  | .writeWord i v =>
    if s.writing then some { s with data := Function.update s.data i v } else none
  | .writeUnlock =>
    if s.writing then
      some { s with lock := s.lock.writeUnlock, writing := false, ticks := s.ticks + 1,
                    values := s.values ++ [s.data] }
    else none
  | .readBegin r =>
    match s.readers r with
    | .idle => some (s.moveTo r (.reading s.lock.readBegin (fun _ ↦ none) s.ticks))
    | .reading .. => none
  | .readWord r i =>
    match s.readers r with
    | .idle => none
    | .reading c copy before =>
      some (s.moveTo r (.reading c (Function.update copy i (some (s.data i))) before))
  | .leave r => some (s.moveTo r .idle)

end Sys

/-- A lock that was just constructed over memory that held `ctr`, and the words it guards. -/
def start (Rid : Type) (ctr : UInt32) (data : Fin n → W) : Sys n W Rid :=
  { lock := { ctr }, data, writing := false, readers := fun _ ↦ .idle, ticks := 0,
    values := [data] }

/-- A lock whose counter starts at `ctr`. -/
def machine (n : Nat) (W Rid : Type) [DecidableEq Rid] (ctr : UInt32) :
    Machine (Sys n W Rid) (Act n W Rid) where
  init s := ∃ data, s = start Rid ctr data
  step := Sys.step

/-- Whoever copied all words and is told not to retry has the words as they were before the first
update or behind some completed one, unless `2 ^ 31` updates began meanwhile. -/
def Consistent (s : Sys n W Rid) : Prop :=
  ∀ r c copy before, s.readers r = .reading c (fun i ↦ some (copy i)) before →
    s.lock.readRetry c = false → begun s.ticks - begun before < 2 ^ 31 → copy ∈ s.values

/-! ### An even start -/

/-- The counter counts the increments, and is odd in an update. Between updates the words are the
last value; and a reader before whose eyes nothing happened has copied from that. -/
structure Inv (ctr : UInt32) (s : Sys n W Rid) : Prop where
  ctr_eq : s.lock.ctr.toNat = (ctr.toNat + s.ticks) % 2 ^ 32
  parity : s.ticks % 2 = s.writing.toNat
  settled : s.writing = false → s.data ∈ s.values
  before_le : ∀ r c copy before, s.readers r = .reading c copy before →
    before ≤ s.ticks ∧ c.toNat = (ctr.toNat + before) % 2 ^ 32
  copied : ∀ r c copy, s.readers r = .reading c copy s.ticks → s.writing = false →
    ∀ i v, copy i = some v → v = s.data i

variable {ctr : UInt32}

theorem inv_start (ctr : UInt32) (data : Fin n → W) : Inv ctr (start Rid ctr data) where
  ctr_eq := (Nat.mod_eq_of_lt ctr.toNat_lt).symm
  parity := rfl
  settled _ := List.mem_singleton_self data
  before_le := by
    intro r c copy before h
    cases h
  copied := by
    intro r c copy h
    cases h

/-- The counter behind one more increment. -/
theorem toNat_add_one {c : UInt32} {k : Nat} (h : c.toNat = k % 2 ^ 32) :
    (c + 1).toNat = (k + 1) % 2 ^ 32 := by
  have h1 : (1 : UInt32).toNat = 1 := rfl
  rw [UInt32.toNat_add, h, h1]
  omega

/-- An increment, behind which no reader has seen the whole time. -/
theorem Inv.tick {s s' : Sys n W Rid} (h : Inv ctr s) (hl : s'.lock.ctr = s.lock.ctr + 1)
    (ht : s'.ticks = s.ticks + 1) (hw : s'.writing = !s.writing) (hr : s'.readers = s.readers)
    (hs : s'.writing = false → s'.data ∈ s'.values) : Inv ctr s' where
  ctr_eq := by
    rw [hl, ht]
    exact toNat_add_one h.ctr_eq
  parity := by
    have hp := h.parity
    rw [ht, hw]
    cases hs : s.writing <;> rw [hs] at hp <;> simp at hp ⊢ <;> omega
  settled := hs
  before_le := by
    intro r c copy before hb
    rw [hr] at hb
    rw [ht]
    have := h.before_le r c copy before hb
    exact ⟨by omega, this.2⟩
  copied := by
    intro r c copy hb
    rw [hr, ht] at hb
    have := (h.before_le r c copy _ hb).1
    omega

variable [DecidableEq Rid]

/-- A step of a reader, which leaves the rest as it is. -/
theorem Inv.moveTo {s : Sys n W Rid} (h : Inv ctr s) (r : Rid) (x : Reader n W)
    (hb : ∀ c copy before, x = .reading c copy before →
      before ≤ s.ticks ∧ c.toNat = (ctr.toNat + before) % 2 ^ 32)
    (hc : ∀ c copy, x = .reading c copy s.ticks → s.writing = false →
      ∀ i v, copy i = some v → v = s.data i) :
    Inv ctr (s.moveTo r x) where
  ctr_eq := h.ctr_eq
  parity := h.parity
  settled := h.settled
  before_le := by
    intro u c copy before hu
    by_cases hur : u = r
    · subst hur
      rw [Sys.readers_moveTo, Function.update_self] at hu
      exact hb c copy before hu
    · rw [Sys.readers_moveTo, Function.update_of_ne hur] at hu
      exact h.before_le u c copy before hu
  copied := by
    intro u c copy hu
    by_cases hur : u = r
    · subst hur
      rw [Sys.readers_moveTo, Function.update_self] at hu
      exact hc c copy hu
    · rw [Sys.readers_moveTo, Function.update_of_ne hur] at hu
      exact h.copied u c copy hu

theorem Inv.step {s s' : Sys n W Rid} {a : Act n W Rid} (h : Inv ctr s)
    (hs : s.step a = some s') : Inv ctr s' := by
  cases a with
  | writeLock =>
    simp only [Sys.step] at hs
    split at hs
    · cases hs
    · next hw =>
      cases hs
      rw [Bool.not_eq_true] at hw
      refine h.tick rfl rfl ?_ rfl ?_
      · rw [hw]
        rfl
      · intro hf
        cases hf
  | writeWord i v =>
    simp only [Sys.step] at hs
    split at hs
    · next hw =>
      cases hs
      have hno : ¬s.writing = false := by
        rw [hw]
        decide
      exact ⟨h.ctr_eq, h.parity, fun hf ↦ absurd hf hno, h.before_le,
        fun r c copy _ hf ↦ absurd hf hno⟩
    · cases hs
  | writeUnlock =>
    simp only [Sys.step] at hs
    split at hs
    · next hw =>
      cases hs
      refine h.tick rfl rfl ?_ rfl ?_
      · rw [hw]
        rfl
      · intro _
        exact List.mem_append_right _ (List.mem_singleton_self _)
    · cases hs
  | readBegin r =>
    simp only [Sys.step] at hs
    split at hs
    · cases hs
      apply h.moveTo
      · rintro c copy before ⟨⟩
        exact ⟨Nat.le_refl _, h.ctr_eq⟩
      · rintro c copy ⟨⟩ _ i v hv
        cases hv
    · cases hs
  | readWord r i =>
    simp only [Sys.step] at hs
    split at hs
    · cases hs
    · next c copy before hr =>
      cases hs
      apply h.moveTo
      · rintro c' copy' before' ⟨⟩
        exact h.before_le r c copy before hr
      · rintro c' copy' ⟨⟩ hw j v hv
        by_cases hj : j = i
        · subst hj
          rw [Function.update_self] at hv
          exact (Option.some.inj hv).symm
        · rw [Function.update_of_ne hj] at hv
          exact h.copied r c copy hr hw j v hv
  | leave r =>
    cases hs
    apply h.moveTo
    · intro c copy before hx
      cases hx
    · intro c copy hx
      cases hx

theorem inv_of_reachable {s : Sys n W Rid} (h : (machine n W Rid ctr).Reachable s) :
    Inv ctr s := by
  apply h.invariant
  · rintro _ ⟨data, rfl⟩
    exact inv_start ctr data
  · intro s a s' hi hs
    exact hi.step hs

omit [DecidableEq Rid] in
/-- Where the counter started even, an even counter that is the same as before means that there
was no increment. -/
theorem Inv.consistent {s : Sys n W Rid} (h : Inv ctr s) (he : ctr.toNat % 2 = 0) :
    Consistent s := by
  intro r c copy before hr hretry hfew
  rcases readRetry_eq_false.mp hretry with ⟨hc, rfl⟩
  rcases h.before_le r _ _ before hr with ⟨hle, hb⟩
  have hctr := h.ctr_eq
  rw [begun, begun] at hfew
  have hticks : before = s.ticks := by omega
  subst hticks
  have hw : s.writing = false := by
    have hp := h.parity
    cases hs : s.writing
    · rfl
    · rw [hs] at hp
      simp at hp
      omega
  have hdata : copy = s.data := by
    funext i
    exact h.copied r _ _ hr hw i (copy i) rfl
  rw [hdata]
  exact h.settled hw

/-! ### An odd start -/

/-- A reader copies some words while the others stand still. -/
theorem reads {s : Sys n W Rid} (h : (machine n W Rid ctr).Reachable s) {r : Rid} {c : UInt32}
    {copy : Fin n → Option W} {before : Nat} (hr : s.readers r = .reading c copy before)
    (is : List (Fin n)) :
    ∃ s', (machine n W Rid ctr).Reachable s' ∧ s'.lock = s.lock ∧ s'.ticks = s.ticks ∧
      s'.values = s.values ∧ s'.readers r =
        .reading c (fun i ↦ if i ∈ is then some (s.data i) else copy i) before := by
  induction is generalizing s copy with
  | nil =>
    refine ⟨s, h, rfl, rfl, rfl, ?_⟩
    rw [hr]
    simp only [List.not_mem_nil, if_false]
  | cons i is ih =>
    have hs : (machine n W Rid ctr).step s (.readWord r i) =
        some (s.moveTo r (.reading c (Function.update copy i (some (s.data i))) before)) := by
      change s.step (.readWord r i) = _
      rw [Sys.step, hr]
    rcases ih (h.step hs) (by rw [Sys.readers_moveTo, Function.update_self])
      with ⟨s', h', hl, ht, hv, hr'⟩
    refine ⟨s', h', hl, ht, hv, ?_⟩
    rw [hr']
    congr 1
    funext j
    by_cases hm : j ∈ is
    · rw [if_pos hm, if_pos (List.mem_cons_of_mem i hm)]
      rfl
    · rw [if_neg hm]
      by_cases hj : j = i
      · subst hj
        rw [Function.update_self, if_pos List.mem_cons_self]
      · rw [Function.update_of_ne hj, if_neg (List.not_mem_cons_of_ne_of_not_mem hj hm)]

/-- A counter that starts odd is even in the middle of an update. -/
theorem not_consistent_of_odd [Nontrivial W] [Nonempty Rid] (hn : 0 < n)
    (ho : ctr.toNat % 2 = 1) :
    ∃ s : Sys n W Rid, (machine n W Rid ctr).Reachable s ∧ ¬Consistent s := by
  rcases exists_pair_ne W with ⟨v, w, hvw⟩
  rcases ‹Nonempty Rid› with ⟨r⟩
  let i : Fin n := ⟨0, hn⟩
  let s₀ : Sys n W Rid := start Rid ctr (fun _ ↦ v)
  let s₁ : Sys n W Rid :=
    { s₀ with lock := s₀.lock.writeLock, writing := true, ticks := 1 }.moveTo r
      (.reading (ctr + 1) (fun _ ↦ none) 1)
  let s₂ : Sys n W Rid := { s₁ with data := Function.update s₁.data i w }
  have hrun : (machine n W Rid ctr).run s₀ [.writeLock, .readBegin r, .writeWord i w] =
      some s₂ := rfl
  have h₂ : (machine n W Rid ctr).Reachable s₂ := Machine.Reachable.run (.init ⟨_, rfl⟩) hrun
  have hr : s₂.readers r = .reading (ctr + 1) (fun _ ↦ none) 1 := Function.update_self ..
  rcases reads h₂ hr (List.finRange n) with ⟨s, hs, hl, ht, hv, hrs⟩
  refine ⟨s, hs, ?_⟩
  intro hc
  simp only [List.mem_finRange, if_true] at hrs
  have heven : (ctr + 1).toNat % 2 = 0 := by
    have h1 : (1 : UInt32).toNat = 1 := rfl
    rw [UInt32.toNat_add, h1]
    omega
  have hmem := hc r _ s₂.data 1 hrs (by
    rw [hl]
    exact readRetry_eq_false.mpr ⟨heven, rfl⟩) (by
    have ht₂ : s₂.ticks = 1 := rfl
    rw [ht, ht₂, Nat.sub_self]
    exact Nat.two_pow_pos 31)
  rw [hv] at hmem
  have hdata : s₂.data = fun _ ↦ v := List.mem_singleton.mp hmem
  have hi := congrFun hdata i
  have hw : s₂.data i = w := by
    change Function.update s₁.data i w i = w
    rw [Function.update_self]
  exact hvw (hi.symm.trans hw)

/-- Readers get consistent snapshots, in every interleaving, exactly if the counter starts
even. -/
theorem seqLock_consistent_iff [Nontrivial W] [Nonempty Rid] (hn : 0 < n) (ctr : UInt32) :
    (∀ s : Sys n W Rid, (machine n W Rid ctr).Reachable s → Consistent s) ↔
      ctr.toNat % 2 = 0 := by
  constructor
  · intro h
    by_contra hne
    have hodd : ∃ s : Sys n W Rid, (machine n W Rid ctr).Reachable s ∧ ¬ Consistent s :=
      not_consistent_of_odd hn (by omega)
    rcases hodd with ⟨s, hs, hno⟩
    exact hno (h s hs)
  · intro he s hs
    exact (inv_of_reachable hs).consistent he

/-- A counter that wraps around within the first update. -/
theorem seqLock_consistent_iff_wrapping :
    (∀ s : Sys 2 Nat Nat, (machine 2 Nat Nat 4294967294).Reachable s → Consistent s) ↔
      (4294967294 : UInt32).toNat % 2 = 0 :=
  seqLock_consistent_iff (by decide) 4294967294

/-- The value of two words. -/
def pair (v w : Nat) : Fin 2 → Nat
  | 0 => v
  | 1 => w

/-- From 1 the counter goes to 2 when an update begins: the reader gets the new first word and
the old second one. -/
theorem seqLock_not_consistent : ¬∀ (ctr : UInt32) (s : Sys 2 Nat Unit),
    (machine 2 Nat Unit ctr).Reachable s → Consistent s := by
  intro h
  have hrun : ∃ s : Sys 2 Nat Unit, (machine 2 Nat Unit 1).run (start Unit 1 (pair 5 6))
      [.writeLock, .readBegin (), .writeWord 0 7, .readWord () 0, .readWord () 1] = some s ∧
        s.lock.ctr = 2 ∧ s.ticks = 1 ∧ s.values = [pair 5 6] ∧
          s.readers () = .reading 2 (fun i ↦ some (pair 7 6 i)) 1 := by
    refine ⟨_, rfl, rfl, rfl, rfl, ?_⟩
    change Reader.reading _ _ _ = _
    congr 1
    funext i
    match i with
    | 0 => rfl
    | 1 => rfl
  rcases hrun with ⟨s, hs, hl, ht, hv, hr⟩
  have hmem := h 1 s (Machine.Reachable.run (.init ⟨_, rfl⟩) hs) () 2 (pair 7 6) 1 hr (by
    rw [readRetry, hl]
    decide) (by
    rw [ht, Nat.sub_self]
    exact Nat.two_pow_pos 31)
  rw [hv, List.mem_singleton] at hmem
  exact absurd (congrFun hmem 0) (by decide)

end SeqLock
end CtrlrFx.Os
