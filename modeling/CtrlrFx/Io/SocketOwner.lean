import CtrlrFx.Io.Socket
import Mathlib.Data.Set.Basic

/-!
# Who owns a handle

Every open handle has one owner: an object, the user, or nobody. The handles that nobody has are
those that a method has let go of and not yet passed on, and those that were forgotten for good.
-/

namespace CtrlrFx.Io.Socket
open Base

variable {Oid : Type} [DecidableEq Oid]

/-- Who has an open handle. -/
inductive Owner (Oid : Type) where
  | object (o : Oid)
  | user
  | nobody

/-- The objects, the user and the system agree on who has which handle. -/
structure Agrees (s : Sys Oid) (w : Nat → Option (Owner Oid)) : Prop where
  isOpen : ∀ h, s.isOpen h = (w h).isSome
  object : ∀ (o : Oid) (h : Nat), s.sock o = (h : Int) ↔ w h = some (.object o)
  user : ∀ h, s.user h = true ↔ w h = some .user
  sock_ge : ∀ o, -1 ≤ s.sock o
  count : ∀ h, s.got h = s.closed h + (s.isOpen h).toNat
  not_stray : s.stray = false

/-- Every open handle has one owner, but those of `L` have none. -/
def Holding (s : Sys Oid) (L : Set Nat) : Prop :=
  ∃ w, Agrees s w ∧ ∀ h : Nat, w h = some .nobody ↔ h ∈ L

/-- The handle of a number, if it is one. -/
def hand (v : Int) : Set Nat := {h | (h : Int) = v}

theorem hand_neg : hand (-1) = ∅ := by
  ext h
  simp [hand]

theorem sock_setSock_self {s : Sys Oid} {o : Oid} (h : s.live o = true) (v : Int) :
    (s.setSock o v).sock o = v := by
  rcases Option.isSome_iff_exists.mp h with ⟨x, hx⟩
  simp [Sys.sock, Sys.setSock, hx]

theorem sock_setSock_of_ne {s : Sys Oid} {o p : Oid} (h : p ≠ o) (v : Int) :
    (s.setSock o v).sock p = s.sock p := by
  simp [Sys.sock, Sys.setSock, h]

/-- An object has no handle behind `sock_ = INVALID_SOCKET`, nor has one that is not live. -/
theorem sock_setSock_neg (s : Sys Oid) (o : Oid) : (s.setSock o (-1)).sock o = -1 := by
  cases h : s.objs o <;> simp [Sys.sock, Sys.setSock, h]

theorem sock_construct_self (s : Sys Oid) (o : Oid) (k : Kind) (v : Int) :
    (s.construct o k v).sock o = v := by
  simp [Sys.sock, Sys.construct]

theorem sock_construct_of_ne (s : Sys Oid) {o p : Oid} (h : p ≠ o) (k : Kind) (v : Int) :
    (s.construct o k v).sock p = s.sock p := by
  simp [Sys.sock, Sys.construct, h]

section

omit [DecidableEq Oid]

variable {s : Sys Oid} {w : Nat → Option (Owner Oid)}

theorem Agrees.not_sock (a : Agrees s w) {o : Oid} {h : Nat} (hw : w h ≠ some (.object o)) :
    s.sock o ≠ (h : Int) :=
  mt (a.object o h).mp hw

theorem Agrees.not_user (a : Agrees s w) {h : Nat} (hw : w h ≠ some .user) :
    ¬s.user h = true :=
  mt (a.user h).mp hw

/-- The owners when a handle has passed to `x`. -/
def give (w : Nat → Option (Owner Oid)) (v : Int) (x : Option (Owner Oid)) (h : Nat) :
    Option (Owner Oid) :=
  if (h : Int) = v then x else w h

/-- A step that touches one handle only, and passes it to `x`. -/
theorem Agrees.give {s' : Sys Oid} {v : Int} {x : Option (Owner Oid)} (a : Agrees s w)
    (hopen : ∀ h : Nat, s'.isOpen h = if (h : Int) = v then x.isSome else s.isOpen h)
    (hobj : ∀ (o : Oid) (h : Nat), s'.sock o = (h : Int) ↔
      if (h : Int) = v then x = some (.object o) else s.sock o = (h : Int))
    (huser : ∀ h : Nat, s'.user h = true ↔
      if (h : Int) = v then x = some .user else s.user h = true)
    (hge : ∀ o, -1 ≤ s'.sock o) (hcount : ∀ h, s'.got h = s'.closed h + (s'.isOpen h).toNat)
    (hstray : s'.stray = false) : Agrees s' (give w v x) where
  isOpen := by
    intro h
    rw [hopen, Socket.give]
    split
    · rfl
    · exact a.isOpen h
  object := by
    intro o h
    rw [hobj, Socket.give]
    split
    · rfl
    · exact a.object o h
  user := by
    intro h
    rw [huser, Socket.give]
    split
    · rfl
    · exact a.user h
  sock_ge := hge
  count := hcount
  not_stray := hstray

section

variable {v : Int} {x y : Option (Owner Oid)}

/-- A handle that passes from one owner to another stays open. -/
theorem Agrees.isOpen_same (a : Agrees s w) (hw : ∀ h : Nat, (h : Int) = v → w h = y)
    (hyx : y.isSome = x.isSome) (h : Nat) :
    s.isOpen h = if (h : Int) = v then x.isSome else s.isOpen h := by
  split
  · next hv => rw [a.isOpen, hw h hv, hyx]
  · rfl

/-- An object does not notice a handle that passes between others. -/
theorem Agrees.object_same (a : Agrees s w) (hw : ∀ h : Nat, (h : Int) = v → w h = y) {o : Oid}
    (hy : y ≠ some (.object o)) (hx : x ≠ some (.object o)) (h : Nat) :
    s.sock o = (h : Int) ↔
      if (h : Int) = v then x = some (.object o) else s.sock o = (h : Int) := by
  split
  · next hv =>
    rw [← hw h hv] at hy
    exact iff_of_false (a.not_sock hy) hx
  · rfl

/-- Nor does the user. -/
theorem Agrees.user_same (a : Agrees s w) (hw : ∀ h : Nat, (h : Int) = v → w h = y)
    (hy : y ≠ some .user) (hx : x ≠ some .user) (h : Nat) :
    s.user h = true ↔ if (h : Int) = v then x = some .user else s.user h = true := by
  split
  · next hv =>
    rw [← hw h hv] at hy
    exact iff_of_false (a.not_user hy) hx
  · rfl

/-- A handle that someone lets go of is new among those that nobody has. -/
theorem nobody_left {L : Set Nat} (hL : ∀ h : Nat, w h = some .nobody ↔ h ∈ L)
    (hw : ∀ h : Nat, (h : Int) = v → w h = y) (hy : y ≠ some .nobody) :
    (∀ h : Nat, Socket.give w v (some .nobody) h = some .nobody ↔ h ∈ L ∪ hand v) ∧
      ∀ h ∈ L, h ∉ hand v := by
  constructor
  · intro h
    rw [give, Set.mem_union]
    split
    · next hv => exact iff_of_true rfl (.inr hv)
    · next hv =>
      rw [hL]
      exact (or_iff_left hv).symm
  · intro h hl hv
    apply hy
    rw [← hw h hv]
    exact (hL h).mpr hl

end

/-- What nobody has when a handle has passed on. -/
theorem nobody_give {L : Set Nat} {v : Int}
    (hL : ∀ h : Nat, w h = some .nobody ↔ h ∈ L ∪ hand v) (hd : ∀ h ∈ L, h ∉ hand v)
    {x : Option (Owner Oid)} (hx : x ≠ some .nobody) (h : Nat) :
    give w v x h = some .nobody ↔ h ∈ L := by
  rw [give]
  split
  · next hv => exact iff_of_false hx fun hl ↦ hd h hl hv
  · next hv =>
    rw [hL, Set.mem_union]
    exact or_iff_left hv

end

/-- An object lets go of its handle. -/
theorem Holding.release {s : Sys Oid} {L : Set Nat} (a : Holding s L) (o : Oid) :
    Holding (s.setSock o (-1)) (L ∪ hand (s.sock o)) ∧ ∀ h ∈ L, h ∉ hand (s.sock o) := by
  rcases a with ⟨w, a, hL⟩
  have hw : ∀ h : Nat, (h : Int) = s.sock o → w h = some (.object o) :=
    fun h hv ↦ (a.object o h).mp hv.symm
  rcases nobody_left hL hw (by simp) with ⟨hL', hd⟩
  refine ⟨⟨give w (s.sock o) (some .nobody), a.give (a.isOpen_same hw rfl) ?_
    (a.user_same hw (by simp) (by simp)) ?_ a.count a.not_stray, hL'⟩, hd⟩
  · intro p h
    by_cases hp : p = o
    · subst hp
      rw [sock_setSock_neg]
      split
      · simp
      · next hv => exact iff_of_false (by omega) fun he ↦ hv he.symm
    · rw [sock_setSock_of_ne hp]
      exact a.object_same hw (by simp [Ne.symm hp]) (by simp) h
  · intro p
    by_cases hp : p = o
    · rw [hp, sock_setSock_neg]
    · rw [sock_setSock_of_ne hp]
      exact a.sock_ge p

/-- An object without a handle takes one that nobody has. -/
theorem Holding.take {s : Sys Oid} {L : Set Nat} {v : Int} (a : Holding s (L ∪ hand v))
    (hd : ∀ h ∈ L, h ∉ hand v) {o : Oid} (h0 : s.sock o = -1) (hv : -1 ≤ v)
    {objs : Oid → Option Obj} (hs : { s with objs := objs }.sock o = v)
    (hp : ∀ p, p ≠ o → { s with objs := objs }.sock p = s.sock p) :
    Holding { s with objs := objs } L := by
  rcases a with ⟨w, a, hL⟩
  have hw : ∀ h : Nat, (h : Int) = v → w h = some .nobody :=
    fun h hh ↦ (hL h).mpr (.inr hh)
  refine ⟨give w v (some (.object o)), a.give (a.isOpen_same hw rfl) ?_
    (a.user_same hw (by simp) (by simp)) ?_ a.count a.not_stray, nobody_give hL hd (by simp)⟩
  · intro p h
    by_cases hpo : p = o
    · subst hpo
      rw [hs, h0]
      split
      · next hh => exact iff_of_true hh.symm rfl
      · next hh => exact iff_of_false (fun hh' ↦ hh hh'.symm) (by omega)
    · rw [hp p hpo]
      exact a.object_same hw (by simp) (by simp [Ne.symm hpo]) h
  · intro p
    by_cases hpo : p = o
    · rw [hpo, hs]
      exact hv
    · rw [hp p hpo]
      exact a.sock_ge p

omit [DecidableEq Oid] in
/-- The system closes a handle that nobody has. -/
theorem Holding.osClose {s : Sys Oid} {L : Set Nat} {v : Int} (a : Holding s (L ∪ hand v))
    (hd : ∀ h ∈ L, h ∉ hand v) (hv : 0 ≤ v) : Holding (s.osClose v) L := by
  rcases a with ⟨w, a, hL⟩
  have hw : ∀ h : Nat, (h : Int) = v → w h = some .nobody :=
    fun h hh ↦ (hL h).mpr (.inr hh)
  have hvn : (v.toNat : Int) = v := Int.toNat_of_nonneg hv
  have ho : s.isOpen v.toNat = true := by
    rw [a.isOpen, hw _ hvn]
    rfl
  rw [Sys.osClose, if_pos ho]
  refine ⟨give w v none, a.give ?_ (fun _ ↦ a.object_same hw (by simp) (by simp))
    (a.user_same hw (by simp) (by simp)) a.sock_ge ?_ a.not_stray, nobody_give hL hd (by simp)⟩
  · intro h
    show Function.update s.isOpen v.toNat false h = _
    split
    · next hh =>
      obtain rfl : h = v.toNat := by omega
      rw [Function.update_self]
      rfl
    · next hh =>
      have hne : h ≠ v.toNat := by omega
      rw [Function.update_of_ne hne]
  · intro h
    show s.got h = Function.update s.closed v.toNat (s.closed v.toNat + 1) h +
      (Function.update s.isOpen v.toNat false h).toNat
    by_cases hh : h = v.toNat
    · subst hh
      rw [Function.update_self, Function.update_self, a.count, ho]
      rfl
    · rw [Function.update_of_ne hh, Function.update_of_ne hh]
      exact a.count h

/-- The handle `x` is in nobody's hand as `v`, which is `-1` without one; no object has changed. -/
structure Handed (s s' : Sys Oid) (L : Set Nat) (x : Option Nat) (v : Int) : Prop where
  holding : Holding s' (L ∪ hand v)
  fresh : ∀ h ∈ L, h ∉ hand v
  ge : -1 ≤ v
  objs : s'.objs = s.objs
  isSome : 0 ≤ v ↔ x.isSome = true

omit [DecidableEq Oid] in
theorem Holding.handed_none {s : Sys Oid} {L : Set Nat} (a : Holding s L) :
    Handed s s L none (-1) := by
  constructor
  · rw [hand_neg, Set.union_empty]
    exact a
  · intro h _
    rw [hand_neg]
    exact Set.notMem_empty h
  · exact Int.le_refl _
  · rfl
  · decide

omit [DecidableEq Oid] in
/-- The system gives out a handle, which nobody has yet. -/
theorem Holding.osSocket {s s' : Sys Oid} {L : Set Nat} {x : Option Nat} {v : Int}
    (a : Holding s L) (hs : s.osSocket x = some (v, s')) : Handed s s' L x v := by
  cases x with
  | none =>
    cases hs
    exact a.handed_none
  | some h =>
    simp only [Sys.osSocket, Option.ite_none_left_eq_some, Option.some.injEq, Prod.mk.injEq,
      Bool.not_eq_true] at hs
    rcases hs with ⟨hno, rfl, rfl⟩
    rcases a with ⟨w, a, hL⟩
    have hw : ∀ g : Nat, (g : Int) = h → w g = none := by
      intro g hg
      have ho := a.isOpen h
      rw [hno] at ho
      rw [Int.natCast_inj.mp hg]
      exact Option.isNone_iff_eq_none.mp (by simpa using ho.symm)
    rcases nobody_left hL hw (by simp) with ⟨hL', hd⟩
    refine ⟨⟨give w h (some .nobody), a.give ?_ (fun _ ↦ a.object_same hw (by simp) (by simp))
      (a.user_same hw (by simp) (by simp)) a.sock_ge ?_ a.not_stray, hL'⟩, hd, by omega,
      rfl, iff_of_true (Int.natCast_nonneg h) rfl⟩
    · intro g
      show Function.update s.isOpen h true g = _
      split
      · next hg =>
        obtain rfl := Int.natCast_inj.mp hg
        rw [Function.update_self]
        rfl
      · next hg => rw [Function.update_of_ne fun he ↦ hg (by rw [he])]
    · intro g
      show Function.update s.got h (s.got h + 1) g =
        s.closed g + (Function.update s.isOpen h true g).toNat
      by_cases hg : g = h
      · subst hg
        rw [Function.update_self, Function.update_self, a.count, hno]
        rfl
      · rw [Function.update_of_ne hg, Function.update_of_ne hg]
        exact a.count g

omit [DecidableEq Oid] in
/-- The user gets a handle that nobody has. -/
theorem Holding.toUser {s : Sys Oid} {L : Set Nat} {v : Int} (a : Holding s (L ∪ hand v))
    (hd : ∀ h ∈ L, h ∉ hand v) (hv : -1 ≤ v) : Holding (s.toUser v) L := by
  unfold Sys.toUser
  split
  · next hp =>
    rcases a with ⟨w, a, hL⟩
    have hw : ∀ h : Nat, (h : Int) = v → w h = some .nobody :=
      fun h hh ↦ (hL h).mpr (.inr hh)
    refine ⟨give w v (some .user), a.give (a.isOpen_same hw rfl)
      (fun _ ↦ a.object_same hw (by simp) (by simp)) ?_ a.sock_ge a.count a.not_stray,
      nobody_give hL hd (by simp)⟩
    intro h
    show Function.update s.user v.toNat true h = true ↔ _
    split
    · next hh =>
      obtain rfl : h = v.toNat := by omega
      rw [Function.update_self]
      exact iff_of_true rfl rfl
    · next hh =>
      have hne : h ≠ v.toNat := by omega
      rw [Function.update_of_ne hne]
  · next hp =>
    obtain rfl : v = -1 := by omega
    rw [hand_neg, Set.union_empty] at a
    exact a

omit [DecidableEq Oid] in
/-- The user lets go of a handle. -/
theorem Holding.fromUser {s s' : Sys Oid} {L : Set Nat} {x : Option Nat} {v : Int}
    (a : Holding s L) (hs : s.fromUser x = some (v, s')) : Handed s s' L x v := by
  cases x with
  | none =>
    cases hs
    exact a.handed_none
  | some h =>
    simp only [Sys.fromUser, Option.ite_none_right_eq_some, Option.some.injEq,
      Prod.mk.injEq] at hs
    rcases hs with ⟨hu, rfl, rfl⟩
    rcases a with ⟨w, a, hL⟩
    have hw : ∀ g : Nat, (g : Int) = h → w g = some .user := by
      intro g hg
      rw [Int.natCast_inj.mp hg]
      exact (a.user h).mp hu
    rcases nobody_left hL hw (by simp) with ⟨hL', hd⟩
    refine ⟨⟨give w h (some .nobody), a.give (a.isOpen_same hw rfl)
      (fun _ ↦ a.object_same hw (by simp) (by simp)) ?_ a.sock_ge a.count a.not_stray, hL'⟩, hd,
      by omega, rfl, iff_of_true (Int.natCast_nonneg h) rfl⟩
    intro g
    show Function.update s.user h false g = true ↔ _
    split
    · next hg =>
      obtain rfl := Int.natCast_inj.mp hg
      rw [Function.update_self]
      simp
    · next hg => rw [Function.update_of_ne fun he ↦ hg (by rw [he])]

/-! ### The methods pass handles on -/

omit [DecidableEq Oid] in
/-- An object is live by the table of objects alone. -/
theorem live_congr {s s' : Sys Oid} (h : s'.objs = s.objs) (o : Oid) : s'.live o = s.live o := by
  rw [Sys.live, h, Sys.live]

omit [DecidableEq Oid] in
theorem Holding.sock_ge {s : Sys Oid} {L : Set Nat} (a : Holding s L) (o : Oid) :
    -1 ≤ s.sock o := by
  rcases a with ⟨w, a, -⟩
  exact a.sock_ge o

omit [DecidableEq Oid] in
/-- No object has a handle that someone else passes to it. -/
theorem Holding.ne_sock {s : Sys Oid} {L : Set Nat} {v : Int} (a : Holding s (L ∪ hand v))
    (hv : 0 ≤ v) (o : Oid) : v ≠ s.sock o := by
  rcases a with ⟨w, a, hL⟩
  intro he
  have hvn : (v.toNat : Int) = v := Int.toNat_of_nonneg hv
  have hw : w v.toNat = some .nobody := (hL _).mpr (.inr hvn)
  exact a.not_sock (o := o) (by rw [hw]; simp) (by omega)

theorem Holding.close {s : Sys Oid} {L : Set Nat} (a : Holding s L) (o : Oid) :
    Holding (s.close o) L := by
  unfold Sys.close
  split
  · next hv =>
    rcases a.release o with ⟨a', hd⟩
    exact a'.osClose hd hv
  · exact a

omit [DecidableEq Oid] in
theorem objs_osClose (s : Sys Oid) (v : Int) : (s.osClose v).objs = s.objs := by
  unfold Sys.osClose
  split <;> rfl

omit [DecidableEq Oid] in
theorem sock_osClose (s : Sys Oid) (v : Int) (o : Oid) : (s.osClose v).sock o = s.sock o := by
  rw [Sys.sock, objs_osClose, Sys.sock]

omit [DecidableEq Oid] in
theorem live_osClose (s : Sys Oid) (v : Int) (o : Oid) : (s.osClose v).live o = s.live o := by
  rw [Sys.live, objs_osClose, Sys.live]

theorem live_setSock (s : Sys Oid) (o p : Oid) (v : Int) :
    (s.setSock o v).live p = s.live p := by
  by_cases hp : p = o
  · subst hp
    simp [Sys.live, Sys.setSock]
  · simp [Sys.live, Sys.setSock, hp]

theorem live_close (s : Sys Oid) (o p : Oid) : (s.close o).live p = s.live p := by
  unfold Sys.close
  split
  · rw [live_osClose]
    exact live_setSock s o p (-1)
  · rfl

/-- A closed object has no handle. -/
theorem sock_close {s : Sys Oid} (o : Oid) (h : -1 ≤ s.sock o) : (s.close o).sock o = -1 := by
  unfold Sys.close
  split
  · rw [sock_osClose]
    exact sock_setSock_neg s o
  · omega

/-- An object takes a handle in the place of its own. -/
theorem Holding.reset {s : Sys Oid} {L : Set Nat} {v : Int} (a : Holding s (L ∪ hand v))
    (hd : ∀ h ∈ L, h ∉ hand v) (hv : -1 ≤ v) {o : Oid} (ho : s.live o = true) :
    Holding (s.reset o v) L := by
  unfold Sys.reset
  split
  · have hl : (s.close o).live o = true := (live_close s o o).trans ho
    exact (a.close o).take hd (sock_close o (a.sock_ge o)) hv (sock_setSock_self hl v)
      fun p hp ↦ sock_setSock_of_ne hp v
  · next he =>
    have hv' : v = -1 := by
      by_contra hn
      exact he (a.ne_sock (by omega) o)
    rw [hv', hand_neg, Set.union_empty] at a
    exact a

theorem sock_reset {s : Sys Oid} {o : Oid} (ho : s.live o = true) (v : Int) :
    (s.reset o v).sock o = v := by
  unfold Sys.reset
  split
  · exact sock_setSock_self ((live_close s o o).trans ho) v
  · next he => exact (Decidable.not_not.mp he).symm

theorem Holding.assignRef {s : Sys Oid} {L : Set Nat} (a : Holding s L) {o : Oid} (p : Oid)
    (ho : s.live o = true) : Holding (s.assignRef o p) L := by
  rcases a.release p with ⟨a', hd⟩
  exact a'.reset hd (a.sock_ge p) ((live_setSock s p o (-1)).trans ho)

theorem Holding.assign {s : Sys Oid} {L : Set Nat} (a : Holding s L) {o : Oid} (p : Oid)
    (ho : s.live o = true) : Holding (s.assign o p) L := by
  unfold Sys.assign
  split
  · exact a.assignRef p ho
  · exact a

omit [DecidableEq Oid] in
theorem sock_of_not_live {s : Sys Oid} {o : Oid} (h : s.live o = false) : s.sock o = -1 := by
  rw [Sys.sock, Option.isSome_eq_false_iff.mp h |> Option.isNone_iff_eq_none.mp]

/-- A new object takes a handle. -/
theorem Holding.construct {s : Sys Oid} {L : Set Nat} {v : Int} (a : Holding s (L ∪ hand v))
    (hd : ∀ h ∈ L, h ∉ hand v) (hv : -1 ≤ v) {o : Oid} (ho : s.live o = false) (k : Kind) :
    Holding (s.construct o k v) L :=
  a.take hd (sock_of_not_live ho) hv (sock_construct_self s o k v)
    fun _ hp ↦ sock_construct_of_ne s hp k v

theorem Holding.default {s : Sys Oid} {L : Set Nat} (a : Holding s L) {o : Oid}
    (ho : s.live o = false) (k : Kind) : Holding (s.construct o k (-1)) L := by
  apply Holding.construct (v := -1) _ _ (by decide) ho k
  · rw [hand_neg, Set.union_empty]
    exact a
  · rw [hand_neg]
    exact fun _ _ ↦ Set.notMem_empty _

theorem Holding.copy {s : Sys Oid} {L : Set Nat} (a : Holding s L) {o : Oid} (k : Kind) (p : Oid)
    (ho : s.live o = false) : Holding (s.copy o k p) L := by
  rcases a.release p with ⟨a', hd⟩
  exact a'.construct hd (a.sock_ge p) ((live_setSock s p o (-1)).trans ho) k

/-- A destroyed object has closed its handle. -/
theorem Holding.destroy {s : Sys Oid} {L : Set Nat} (a : Holding s L) (o : Oid) :
    Holding (s.destroy o) L := by
  have a' := a.close o
  refine Holding.take (v := -1) ?_ ?_ (o := o) (sock_close o (a.sock_ge o)) (by decide) ?_ ?_
  · rw [hand_neg, Set.union_empty]
    exact a'
  · rw [hand_neg]
    exact fun _ _ ↦ Set.notMem_empty _
  · simp [Sys.sock]
  · intro _ hp
    simp [Sys.sock, hp]

theorem Holding.tcpOpen {s s' : Sys Oid} {L : Set Nat} (a : Holding s L) {o : Oid}
    (ho : s.live o = true) {h : Option Nat} {r : Int} (hs : s.tcpOpen o h = some (r, s')) :
    Holding s' L := by
  unfold Sys.tcpOpen at hs
  split at hs
  · simp only [Option.map_eq_some_iff, Prod.exists, Prod.mk.injEq] at hs
    rcases hs with ⟨v, t, ht, -, rfl⟩
    rcases a.osSocket ht with ⟨a', hd, hv, hobjs, -⟩
    apply a'.reset hd hv
    exact (live_congr hobjs o).trans ho
  · cases hs
    exact a

/-! ### Failing opens -/

/-- Whether one of the calls behind `::socket` fails. -/
def OpenCalls.fails (c : OpenCalls) : Bool :=
  decide (c.setsockopt < 0) || decide (c.bind < 0) || decide (c.listen < 0)

/-- A step in which `open` or `connect` has got a handle and then fails. -/
def lossy (s : Sys Oid) : Act Oid → Bool
  | .newAcceptor _ isSet c => isSet && c.socket.isSome && c.fails
  | .accOpen o isSet c => s.sock o = -1 && isSet && c.socket.isSome && c.fails
  | .newConnector _ h ret => h.isSome && decide (ret < 0)
  | .connect _ h ret => h.isSome && decide (ret < 0)
  | _ => false

/-- Handles that were nobody's and those that a step forgot, if it is one of those that do. -/
def Forgets (s' : Sys Oid) (L : Set Nat) (b : Bool) : Prop :=
  ∃ M, Holding s' (L ∪ M) ∧ (M = ∅ ↔ b = false)

omit [DecidableEq Oid] in
theorem Holding.forgets {s' : Sys Oid} {L : Set Nat} (a : Holding s' L) {b : Bool}
    (hb : b = false) : Forgets s' L b :=
  ⟨∅, by rwa [Set.union_empty], iff_of_true rfl hb⟩

/-- The handle of an object that lets go of it is forgotten, if it has one. -/
theorem Holding.forgets_release {s : Sys Oid} {L : Set Nat} (a : Holding s L) (o : Oid) {b : Bool}
    (hb : 0 ≤ s.sock o ↔ b = true) : Forgets (s.release o).2 L b := by
  refine ⟨hand (s.sock o), (a.release o).1, ?_⟩
  rw [← Bool.not_eq_true, ← hb]
  constructor
  · intro he hv
    have hm : (s.sock o).toNat ∈ hand (s.sock o) := Int.toNat_of_nonneg hv
    rw [he] at hm
    exact hm
  · intro hv
    have hge := a.sock_ge o
    rw [show s.sock o = -1 by omega]
    exact hand_neg

/-- What `TcpAcceptor::open` does behind `create()`. -/
theorem Holding.listenOn {s : Sys Oid} {L : Set Nat} (a : Holding s L) (o : Oid) (c : OpenCalls) :
    Forgets (s.listenOn o c).2 L (decide (0 ≤ s.sock o) && c.fails) := by
  unfold Sys.listenOn
  split
  · next h => exact a.forgets (by rw [h]; rfl)
  · next h =>
    have hv : 0 ≤ s.sock o := by
      have hge := a.sock_ge o
      omega
    have hd : ∀ x : Bool, (decide (0 ≤ s.sock o) && x) = x := by simp [hv]
    rw [hd]
    split
    · next h1 => exact a.forgets_release o (by simp [hv, OpenCalls.fails, h1])
    · next h1 =>
      split
      · next h2 => exact a.forgets_release o (by simp [hv, OpenCalls.fails, h2])
      · next h2 =>
        split
        · next h3 => exact a.forgets_release o (by simp [hv, OpenCalls.fails, h3])
        · next h3 =>
          apply a.forgets
          simp only [OpenCalls.fails, h1, h2, h3, decide_false, Bool.or_self]

theorem Holding.accOpen {s s' : Sys Oid} {L : Set Nat} (a : Holding s L) {o : Oid}
    (ho : s.live o = true) {isSet : Bool} {c : OpenCalls} {r : Int}
    (hs : s.accOpen o isSet c = some (r, s')) :
    Forgets s' L (s.sock o = -1 && isSet && c.socket.isSome && c.fails) := by
  unfold Sys.accOpen at hs
  split at hs
  · next h0 =>
    cases hs
    exact a.forgets (by simp [h0])
  · next h0 =>
    split at hs
    · next h1 =>
      cases hs
      rw [Bool.not_eq_true'] at h1
      exact a.forgets (by simp [h1])
    · next h1 =>
      simp only [Option.map_eq_some_iff, Prod.exists] at hs
      rcases hs with ⟨v, t, ht, hs⟩
      rcases a.osSocket ht with ⟨a', hd, hv, hobjs, hsome⟩
      have hlive : t.live o = true := (live_congr hobjs o).trans ho
      have hf := (a'.reset hd hv hlive).listenOn o c
      rw [hs, sock_reset hlive] at hf
      have hb : (decide (0 ≤ v) && c.fails) =
          (s.sock o = -1 && isSet && c.socket.isSome && c.fails) := by
        have hv' : decide (0 ≤ v) = c.socket.isSome := by
          rw [Bool.eq_iff_iff, decide_eq_true_eq]
          exact hsome
        have h0' : s.sock o = -1 := Decidable.not_not.mp h0
        have h1' : isSet = true := by simpa using h1
        simp [hv', h0', h1']
      rw [← hb]
      exact hf

/-- What the connector does with its handle behind `::connect`. -/
theorem Holding.forgets_connect {s : Sys Oid} {L : Set Nat} (a : Holding s L) {o : Oid}
    {h : Option Nat} (hv : 0 ≤ s.sock o ↔ h.isSome = true) (ret : Int) :
    Forgets (if ret < 0 then (s.release o).2 else s) L (h.isSome && decide (ret < 0)) := by
  split
  · next hr => exact a.forgets_release o (by simp [hr, hv])
  · next hr => exact a.forgets (by simp [hr])

theorem Holding.connect {s s' : Sys Oid} {L : Set Nat} (a : Holding s L) {o : Oid}
    (ho : s.live o = true) {h : Option Nat} {ret r : Int}
    (hs : s.connect o h ret = some (r, s')) :
    Forgets s' L (h.isSome && decide (ret < 0)) := by
  simp only [Sys.connect, Option.map_eq_some_iff, Prod.exists, Prod.mk.injEq] at hs
  rcases hs with ⟨v, t, ht, -, rfl⟩
  rcases a.osSocket ht with ⟨a', hd, hv, hobjs, hsome⟩
  have hlive : t.live o = true := (live_congr hobjs o).trans ho
  apply (a'.reset hd hv hlive).forgets_connect
  rw [sock_reset hlive]
  exact hsome

theorem Holding.newConnector {s s' : Sys Oid} {L : Set Nat} (a : Holding s L) {o : Oid}
    (ho : s.live o = false) {h : Option Nat} {ret : Int}
    (hs : s.newConnector o h ret = some s') :
    Forgets s' L (h.isSome && decide (ret < 0)) := by
  simp only [Sys.newConnector, Option.map_eq_some_iff, Prod.exists] at hs
  rcases hs with ⟨v, t, ht, rfl⟩
  rcases a.osSocket ht with ⟨a', hd, hv, hobjs, hsome⟩
  have hlive : t.live o = false := (live_congr hobjs o).trans ho
  apply (a'.construct hd hv hlive .tcpConnector).forgets_connect
  rw [sock_construct_self]
  exact hsome

omit [DecidableEq Oid] in
theorem live_of_isA {s : Sys Oid} {o : Oid} {ks : List Kind} (h : s.isA o ks = true) :
    s.live o = true := by
  unfold Sys.isA at h
  unfold Sys.live
  cases hx : s.objs o with
  | none => rw [hx] at h; cases h
  | some x => rfl

/-- A step forgets a handle if and only if it is a failing `open` or `connect` that got one. -/
theorem step_forgets {s s' : Sys Oid} {L : Set Nat} (a : Holding s L) {act : Act Oid}
    (hs : step s act = some s') : Forgets s' L (lossy s act) := by
  cases act with
  | osSocket h =>
    simp only [step, Option.map_eq_some_iff, Prod.exists] at hs
    rcases hs with ⟨v, t, ht, rfl⟩
    rcases a.osSocket ht with ⟨a', hd, hv, -, -⟩
    exact (a'.toUser hd hv).forgets rfl
  | osClose h =>
    simp only [step, Option.map_eq_some_iff, Prod.exists] at hs
    rcases hs with ⟨v, t, ht, rfl⟩
    rcases a.fromUser ht with ⟨a', hd, -, -, hv⟩
    exact (a'.osClose hd (hv.mpr rfl)).forgets rfl
  | default o k =>
    simp only [step, Option.ite_none_left_eq_some, Option.some.injEq, Bool.not_eq_true] at hs
    rcases hs with ⟨ho, rfl⟩
    exact (a.default ho k).forgets rfl
  | fromHandle o k h =>
    simp only [step, Option.ite_none_left_eq_some, Option.map_eq_some_iff, Prod.exists,
      Bool.or_eq_true, not_or, Bool.not_eq_true] at hs
    rcases hs with ⟨⟨⟨ho, -⟩, -⟩, v, t, ht, rfl⟩
    rcases a.fromUser ht with ⟨a', hd, hv, hobjs, -⟩
    refine (a'.construct hd hv ?_ k).forgets rfl
    exact (live_congr hobjs o).trans ho
  | copy o k p =>
    simp only [step, Option.ite_none_left_eq_some, Option.some.injEq, Bool.or_eq_true, not_or,
      Bool.not_eq_true] at hs
    rcases hs with ⟨⟨⟨⟨ho, -⟩, -⟩, -⟩, rfl⟩
    exact (a.copy k p ho).forgets rfl
  | assign o p =>
    simp only [step, Option.ite_none_right_eq_some, Option.some.injEq, Bool.and_eq_true] at hs
    rcases hs with ⟨⟨ho, -⟩, rfl⟩
    exact (a.assign p ho).forgets rfl
  | assignRef o p =>
    simp only [step, Option.ite_none_right_eq_some, Option.some.injEq, Bool.and_eq_true] at hs
    rcases hs with ⟨⟨ho, -⟩, rfl⟩
    exact (a.assignRef p ho).forgets rfl
  | tcpOpen o h =>
    simp only [step, Option.ite_none_right_eq_some, Option.map_eq_some_iff, Prod.exists] at hs
    rcases hs with ⟨ho, r, t, ht, rfl⟩
    exact (a.tcpOpen (live_of_isA ho) ht).forgets rfl
  | newAcceptor o isSet c =>
    simp only [step, Option.ite_none_left_eq_some, Option.map_eq_some_iff, Prod.exists,
      Bool.not_eq_true] at hs
    rcases hs with ⟨ho, r, t, ht, rfl⟩
    have hf := (a.default ho .tcpAcceptor).accOpen (by simp [Sys.live, Sys.construct]) ht
    rw [sock_construct_self] at hf
    exact hf
  | accOpen o isSet c =>
    simp only [step, Option.ite_none_right_eq_some, Option.map_eq_some_iff, Prod.exists] at hs
    rcases hs with ⟨ho, r, t, ht, rfl⟩
    exact a.accOpen (live_of_isA ho) ht
  | accept o p h =>
    simp only [step, Sys.accept, Option.ite_none_right_eq_some, Option.map_eq_some_iff,
      Prod.exists, Bool.and_eq_true, Bool.not_eq_true'] at hs
    rcases hs with ⟨⟨ho, -⟩, v, t, ht, rfl⟩
    rcases a.osSocket ht with ⟨a', hd, hv, hobjs, -⟩
    refine (a'.construct hd hv ?_ .tcpSocket).forgets rfl
    exact (live_congr hobjs o).trans ho
  | newConnector o h ret =>
    simp only [step, Option.ite_none_left_eq_some, Bool.not_eq_true] at hs
    exact a.newConnector hs.1 hs.2
  | connect o h ret =>
    simp only [step, Option.ite_none_right_eq_some, Option.map_eq_some_iff, Prod.exists] at hs
    rcases hs with ⟨ho, r, t, ht, rfl⟩
    exact a.connect (live_of_isA ho) ht
  | reset o h =>
    simp only [step, Option.ite_none_right_eq_some, Option.map_eq_some_iff, Prod.exists] at hs
    rcases hs with ⟨ho, v, t, ht, rfl⟩
    rcases a.fromUser ht with ⟨a', hd, hv, hobjs, -⟩
    refine (a'.reset hd hv ?_).forgets rfl
    exact (live_congr hobjs o).trans ho
  | resetSelf o =>
    simp only [step, Sys.reset, ne_eq, not_true_eq_false, if_false,
      Option.ite_none_right_eq_some, Option.some.injEq] at hs
    rw [← hs.2]
    exact a.forgets rfl
  | release o =>
    simp only [step, Option.ite_none_right_eq_some, Option.some.injEq] at hs
    rcases hs with ⟨-, rfl⟩
    rcases a.release o with ⟨a', hd⟩
    exact (a'.toUser hd (a.sock_ge o)).forgets rfl
  | close o =>
    simp only [step, Option.ite_none_right_eq_some, Option.some.injEq] at hs
    rcases hs with ⟨-, rfl⟩
    exact (a.close o).forgets rfl
  | destroy o =>
    simp only [step, Option.ite_none_right_eq_some, Option.some.injEq] at hs
    rcases hs with ⟨-, rfl⟩
    exact (a.destroy o).forgets rfl

/-! ### Ownership over whole runs -/

/-- What ownership promises: no handle in two hands, none closed twice, every held handle open
and every open one held. A handle is closed once for each time it was given out, but for the
last time while it is open. -/
structure Owned (s : Sys Oid) : Prop where
  one_object : ∀ (o p : Oid) (h : Nat), s.sock o = (h : Int) → s.sock p = (h : Int) → o = p
  object_or_user : ∀ (o : Oid) (h : Nat), s.sock o = (h : Int) → s.user h = false
  closed_once : s.stray = false ∧ ∀ h, s.got h = s.closed h + (s.isOpen h).toNat
  held_open : ∀ h : Nat, (∃ o, s.sock o = (h : Int)) ∨ s.user h = true → s.isOpen h = true
  open_held : ∀ h : Nat, s.isOpen h = true → (∃ o, s.sock o = (h : Int)) ∨ s.user h = true

omit [DecidableEq Oid] in
/-- The promise is kept if and only if no handle has been forgotten. -/
theorem Holding.owned_iff {s : Sys Oid} {L : Set Nat} (a : Holding s L) : Owned s ↔ L = ∅ := by
  rcases a with ⟨w, a, hL⟩
  constructor
  · intro ho
    rw [Set.eq_empty_iff_forall_notMem]
    intro h hm
    have hw := (hL h).mpr hm
    have hopen : s.isOpen h = true := by
      rw [a.isOpen, hw]
      rfl
    rcases ho.open_held h hopen with ⟨o, hs⟩ | hu
    · exact a.not_sock (by rw [hw]; simp) hs
    · exact a.not_user (by rw [hw]; simp) hu
  · rintro rfl
    constructor
    · intro o p h ho hp
      have hw := (a.object o h).mp ho
      rw [(a.object p h).mp hp] at hw
      cases hw
      rfl
    · intro o h ho
      rw [← Bool.not_eq_true]
      apply a.not_user
      rw [(a.object o h).mp ho]
      simp
    · exact ⟨a.not_stray, a.count⟩
    · rintro h (⟨o, ho⟩ | hu)
      · rw [a.isOpen, (a.object o h).mp ho]
        rfl
      · rw [a.isOpen, (a.user h).mp hu]
        rfl
    · intro h hopen
      rw [a.isOpen] at hopen
      cases hw : w h with
      | none => rw [hw] at hopen; cases hopen
      | some x =>
        cases x with
        | object o => exact .inl ⟨o, (a.object o h).mpr hw⟩
        | user => exact .inr ((a.user h).mpr hw)
        | nobody => exact absurd ((hL h).mp hw) (Set.notMem_empty h)

omit [DecidableEq Oid] in
theorem holding_start : Holding (start Oid) ∅ := by
  refine ⟨fun _ ↦ none, ⟨fun _ ↦ rfl, ?_, ?_, fun _ ↦ Int.le_refl _, fun _ ↦ rfl, rfl⟩, ?_⟩
  · intro o h
    exact iff_of_false (by simp [Sys.sock, start]) (by simp)
  · intro h
    exact iff_of_false (by simp [start]) (by simp)
  · intro h
    exact iff_of_false (by simp) (Set.notMem_empty h)

/-- Steps that are no failing `open` or `connect` with a handle. -/
def Careful (s : Sys Oid) (act : Act Oid) : Prop := lossy s act = false

instance (s : Sys Oid) (act : Act Oid) : Decidable (Careful s act) :=
  inferInstanceAs (Decidable (lossy s act = false))

/-- A run forgets no handle if and only if each of its steps is careful. -/
theorem run_forgets {s s' : Sys Oid} {L : Set Nat} (a : Holding s L) {acts : List (Act Oid)}
    (hr : (machine Oid).run s acts = some s') :
    ∃ L', Holding s' L' ∧
      (L' = ∅ ↔ L = ∅ ∧ ((machine Oid).restrict Careful).run s acts = some s') := by
  induction acts generalizing s L with
  | nil =>
    cases hr
    exact ⟨L, a, (and_iff_left rfl).symm⟩
  | cons act acts ih =>
    rcases Option.bind_eq_some_iff.mp hr with ⟨t, ht, hr'⟩
    rcases step_forgets a ht with ⟨M, aM, hM⟩
    rcases ih aM hr' with ⟨L', a', hL'⟩
    refine ⟨L', a', hL'.trans ?_⟩
    rw [Set.union_empty_iff, hM, and_assoc, Machine.run]
    apply and_congr_right
    intro _
    cases hl : lossy s act
    · have hstep : ((machine Oid).restrict Careful).step s act = some t :=
        Machine.restrict_step.mpr ⟨hl, ht⟩
      rw [hstep, Option.bind_some, eq_self_iff_true, true_and]
    · have hstep : ((machine Oid).restrict Careful).step s act = none :=
        if_neg (by rw [Careful, hl]; decide)
      rw [hstep, Option.bind_none]
      exact iff_of_false (by simp) (by simp)

/-- In every run, whatever the system answers, handles are owned as they should be exactly if no
`open` or `connect` of the run fails with a handle in its object. -/
theorem socket_owned_iff {s : Sys Oid} {acts : List (Act Oid)}
    (hr : (machine Oid).run (start Oid) acts = some s) :
    Owned s ↔ ((machine Oid).restrict Careful).run (start Oid) acts = some s := by
  rcases run_forgets holding_start hr with ⟨L, a, hL⟩
  rw [a.owned_iff, hL, eq_self_iff_true, true_and]

/-- A connection that goes from the connector to a socket and on to the user, and is closed by a
third object; the system gives out its number again for a second one. -/
theorem socket_owned_iff_passed_on :
    ∃ s : Sys Nat, (machine Nat).run (start Nat)
        [.newConnector 0 (some 3) 0, .copy 1 .tcpSocket 0, .release 1, .fromHandle 2 .socket
          (some 3), .destroy 2, .connect 0 (some 3) 0, .connect 0 none (-1)] = some s ∧
      s.got 3 = 2 ∧
      (Owned s ↔ ((machine Nat).restrict Careful).run (start Nat)
        [.newConnector 0 (some 3) 0, .copy 1 .tcpSocket 0, .release 1, .fromHandle 2 .socket
          (some 3), .destroy 2, .connect 0 (some 3) 0, .connect 0 none (-1)] = some s) := by
  obtain ⟨s, hs, hg⟩ : ∃ s : Sys Nat, (machine Nat).run (start Nat)
        [.newConnector 0 (some 3) 0, .copy 1 .tcpSocket 0, .release 1, .fromHandle 2 .socket
          (some 3), .destroy 2, .connect 0 (some 3) 0, .connect 0 none (-1)] = some s ∧
      s.got 3 = 2 := by
    refine ⟨_, rfl, ?_⟩
    rfl
  exact ⟨s, hs, hg, socket_owned_iff hs⟩

/-- An acceptor whose address is in use: `bind` fails, and handle 3 stays open with no one. -/
theorem socket_not_owned : ¬∀ (acts : List (Act Nat)) (s : Sys Nat),
    (machine Nat).run (start Nat) acts = some s → Owned s := by
  intro h
  obtain ⟨s, hs, ho, hn, hu⟩ : ∃ s : Sys Nat, (machine Nat).run (start Nat)
        [.default 0 .tcpAcceptor,
          .accOpen 0 true { socket := some 3, setsockopt := 0, bind := -1, listen := 0 }] =
        some s ∧
      s.isOpen 3 = true ∧ (∀ o, s.sock o = -1) ∧ s.user 3 = false := by
    refine ⟨_, rfl, rfl, ?_, rfl⟩
    intro o
    by_cases ho : o = 0
    · subst ho
      rfl
    · exact sock_setSock_of_ne ho (-1) |>.trans (sock_setSock_of_ne ho 3 |>.trans
        (sock_construct_of_ne _ ho .tcpAcceptor (-1)))
  rcases (h _ s hs).open_held 3 ho with ⟨o, hs'⟩ | hu'
  · rw [hn o] at hs'
    exact absurd hs' (by decide)
  · rw [hu] at hu'
    exact absurd hu' (by decide)

end CtrlrFx.Io.Socket
