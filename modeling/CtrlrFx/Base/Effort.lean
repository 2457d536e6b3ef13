import CtrlrFx.Base.Block
import CtrlrFx.Base.Words

/-!
# Repeated calls

A call is asked to move items at a place and tells how many it moved, or that it moved none. A
best effort repeats it behind what was moved, until all was or a call moves nothing. `Tried` says
which calls that makes; nothing here depends on what is moved, or between what.
-/

namespace CtrlrFx.Base

universe u

/-- A call: where it was to move items, how many, and what it told. -/
structure Attempt where
  start : Nat
  len : Nat
  res : Int
  deriving DecidableEq, Repr

/-- Items that calls moved. -/
def moved : List Attempt → Nat
  | [] => 0
  | c :: cs => c.res.toNat + moved cs

/-- The calls of a best effort to move `n` items at `i`. -/
inductive Tried : Nat → Nat → List Attempt → Prop where
  | done (i : Nat) : Tried i 0 []
  | stop {i n : Nat} {r : Int} (hn : 0 < n) (hr : r ≤ 0) :
      Tried i n [{ start := i, len := n, res := r }]
  | more {i n m : Nat} {cs : List Attempt} (hm : 0 < m) (hn : m ≤ n)
      (h : Tried (i + m) (n - m) cs) :
      Tried i n ({ start := i, len := n, res := m } :: cs)

namespace Tried

/-- Nothing is tried where nothing is left. -/
theorem of_eq_zero {i n : Nat} (h : n = 0) : Tried i n [] := by
  rw [h]
  exact .done i

/-- No more is moved than was asked for. -/
theorem moved_le {i n : Nat} {cs : List Attempt} (h : Tried i n cs) : moved cs ≤ n := by
  induction h with
  | done i => exact Nat.le_refl 0
  | stop hn hr =>
    simp only [moved]
    omega
  | more hm hn _ ih =>
    simp only [moved]
    omega

/-- Less is moved only if a call moved nothing. -/
theorem exists_of_moved_lt {i n : Nat} {cs : List Attempt} (h : Tried i n cs) (hlt : moved cs < n) :
    ∃ c ∈ cs, c.res ≤ 0 := by
  induction h with
  | done i => exact absurd hlt (Nat.not_lt_zero _)
  | stop hn hr => exact ⟨_, List.mem_cons_self, hr⟩
  | more hm hn _ ih =>
    simp only [moved] at hlt
    obtain ⟨c, hc, hr⟩ := ih (by omega)
    exact ⟨c, List.mem_cons_of_mem _ hc, hr⟩

/-- What is moved lies contiguously, in the order of the calls. -/
theorem flatMap_read {α : Type u} {i n : Nat} {cs : List Attempt} (h : Tried i n cs)
    (mem : List α) :
    (cs.flatMap fun c ↦ (Block.read mem c.start c.len).take c.res.toNat) =
      Block.read mem i (moved cs) := by
  induction h with
  | done i => rfl
  | stop hn hr =>
    rw [List.flatMap_cons, List.flatMap_nil, List.append_nil, moved, moved, Nat.add_zero]
    exact Block.take_read _ _ (by dsimp only; omega)
  | more hm hn _ ih =>
    rw [List.flatMap_cons, ih, moved, Block.read_add, Int.toNat_natCast, Block.take_read _ _ hn]

end Tried

/-- State of the loop of a best effort: what the calls work on, how many items they have moved, what
the last of them told, and all of them. -/
structure Effort (σ : Type u) where
  dev : σ
  count : Nat
  nx : Int
  calls : List Attempt

namespace Effort

variable {σ : Type u}

/-- A loop that is entered. -/
def start (d : σ) : Effort σ := { dev := d, count := 0, nx := 0, calls := [] }

variable (call : σ → Nat → Nat → Int × σ)

/-- The loop that moves `n` items at `i`. Every call but the last moves something, so that `n`
rounds are enough. -/
def loop (i n : Nat) : Nat → Effort σ → Effort σ
  | 0, t => t
  | k + 1, t =>
    if t.count < n then
      let r := call t.dev (i + t.count) (n - t.count)
      let nx := toInt32 r.1
      let t := { t with
        dev := r.2
        nx
        calls := t.calls ++ [{ start := i + t.count, len := n - t.count, res := nx }] }
      if nx ≤ 0 then t else loop i n k { t with count := t.count + nx.toNat }
    else t

/-- What calls tell is a number that an `int` holds, and not above what was asked for. -/
def Told : Prop := ∀ d i n, -2 ^ 31 ≤ (call d i n).1 ∧ (call d i n).1 ≤ n

/-- Calls, one after another from `d` to `d'`, told what is recorded. -/
def Answered : σ → List Attempt → σ → Prop
  | d, [], d' => d' = d
  | d, c :: cs, d' =>
    (call d c.start c.len).1 = c.res ∧ Answered (call d c.start c.len).2 cs d'

variable {call}

/-- Where a loop that has moved part of the items gets to. -/
theorem loop_spec (hc : Told call) {i n : Nat} (hn : n < 2 ^ 31) {k : Nat} {t : Effort σ}
    (hk : n ≤ t.count + k) (ht : t.count ≤ n) (hnx : t.count = 0 → t.nx = 0) :
    ∃ cs, (loop call i n k t).calls = t.calls ++ cs ∧ Tried (i + t.count) (n - t.count) cs ∧
      Answered call t.dev cs (loop call i n k t).dev ∧
      (loop call i n k t).count = t.count + moved cs ∧
      ((loop call i n k t).count = 0 → (loop call i n k t).nx ≤ 0 ∧
        (n = 0 → (loop call i n k t).nx = 0)) := by
  induction k generalizing t with
  | zero =>
    exact ⟨[], (List.append_nil _).symm, .of_eq_zero (by omega), rfl, rfl,
      fun h ↦ ⟨Int.le_of_eq (hnx h), fun _ ↦ hnx h⟩⟩
  | succ k ih =>
    rw [loop]
    by_cases hlt : t.count < n
    · obtain ⟨r, hr⟩ : ∃ r, call t.dev (i + t.count) (n - t.count) = r := ⟨_, rfl⟩
      have hlaw := hc t.dev (i + t.count) (n - t.count)
      rw [hr] at hlaw
      have hint : toInt32 r.1 = r.1 := toInt32_of_lt _ hlaw.1 (by omega)
      rw [if_pos hlt, hr]
      dsimp only
      rw [hint]
      by_cases h0 : r.1 ≤ 0
      · rw [if_pos h0]
        refine ⟨_, rfl, .stop (by omega) h0, ⟨by rw [hr], by rw [Answered, hr]⟩, ?_,
          fun _ ↦ ⟨h0, fun hz ↦ by omega⟩⟩
        simp only [moved]
        omega
      · rw [if_neg h0]
        obtain ⟨cs, h1, h2, h3, h4, h5⟩ := ih (t := { t with
            dev := r.2
            count := t.count + r.1.toNat
            nx := r.1
            calls := t.calls ++ [{ start := i + t.count, len := n - t.count, res := r.1 }] })
          (by dsimp only; omega) (by dsimp only; omega) (fun h ↦ by dsimp only at h; omega)
        refine ⟨{ start := i + t.count, len := n - t.count, res := r.1 } :: cs, ?_, ?_, ?_, ?_, h5⟩
        · rw [h1, List.append_assoc, List.singleton_append]
        · have hm : ((r.1.toNat : Nat) : Int) = r.1 := by omega
          have hmore := @Tried.more (i + t.count) (n - t.count) r.1.toNat cs (by omega) (by omega)
            (by rw [Nat.add_assoc, Nat.sub_sub]; exact h2)
          rwa [hm] at hmore
        · rw [Answered, hr]
          exact ⟨rfl, h3⟩
        · rw [h4]
          simp only [moved]
          omega
    · rw [if_neg hlt]
      exact ⟨[], (List.append_nil _).symm, .of_eq_zero (by omega), rfl, rfl,
        fun h ↦ ⟨Int.le_of_eq (hnx h), fun _ ↦ hnx h⟩⟩

/-- What the last call told is an `int`. -/
theorem le_nx_loop {i n k : Nat} {t : Effort σ} (h : -2 ^ 31 ≤ t.nx) :
    -2 ^ 31 ≤ (loop call i n k t).nx := by
  induction k generalizing t with
  | zero => exact h
  | succ k ih =>
    have hint (z : Int) : -2 ^ 31 ≤ toInt32 z := by
      unfold toInt32
      split <;> omega
    rw [loop]
    split
    · dsimp only
      split
      · exact hint _
      · exact ih (hint _)
    · exact h

/-- A loop from its start makes the calls of a best effort and counts what they move. -/
theorem loop_start (hc : Told call) (d : σ) (i : Nat) {n : Nat} (hn : n < 2 ^ 31) :
    Tried i n (loop call i n n (start d)).calls ∧
      Answered call d (loop call i n n (start d)).calls (loop call i n n (start d)).dev ∧
      (loop call i n n (start d)).count = moved (loop call i n n (start d)).calls ∧
      ((loop call i n n (start d)).count = 0 → (loop call i n n (start d)).nx ≤ 0 ∧
        (n = 0 → (loop call i n n (start d)).nx = 0)) := by
  obtain ⟨cs, h1, h2, h3, h4, h5⟩ := loop_spec (t := start d) (k := n) hc hn
    (Nat.le_add_left _ _) (Nat.zero_le _) (fun _ ↦ rfl)
  have hcalls : (loop call i n n (start d)).calls = cs := h1
  have hcount : (loop call i n n (start d)).count = moved cs := h4.trans (Nat.zero_add _)
  rw [hcalls, hcount]
  rw [hcount] at h5
  exact ⟨h2, h3, rfl, h5⟩

end Effort
end CtrlrFx.Base
