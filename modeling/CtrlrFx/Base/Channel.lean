import CtrlrFx.Base.Network

/-!
# Threads on channels

A channel is code for a bounded queue, whose calls are many steps of their threads. Threads on
channels do nothing that they do not do with queues in their place, and where none of them can go
on, none can with the queues.
-/

namespace CtrlrFx.Base.Network

/-- Where a thread is in a call on a channel: outside, before and after its value is in, before
and after it has one. -/
inductive Phase (α : Type) where
  | idle
  | putting (v : α)
  | stored
  | getting
  | fetched (v : α)
  deriving DecidableEq, Repr

/-- How a step in a call changes its phase and the values of a channel with room for `cap`. -/
inductive Phase.Moves {α : Type} (cap : Nat) : Phase α → List α → Phase α → List α → Prop where
  | stay {p : Phase α} {vs : List α} (h : p ≠ .idle) : Moves cap p vs p vs
  | store {v : α} {vs : List α} (h : vs.length < cap) :
      Moves cap (.putting v) vs .stored (vs ++ [v])
  | posted {vs : List α} : Moves cap .stored vs .idle vs
  | fetch {v : α} {vs : List α} : Moves cap .getting (v :: vs) (.fetched v) vs
  | freed {v : α} {vs : List α} : Moves cap (.fetched v) vs .idle vs

/-- Where a call may have to wait: before its value is in while there is no room, or before it has
one while there is none. -/
def Phase.Waits {α : Type} (cap : Nat) (vs : List α) : Phase α → Prop
  | .idle => True
  | .putting _ => cap ≤ vs.length
  | .getting => vs = []
  | .stored | .fetched _ => False

/-- Code for a queue that threads `ι` share. A step is refused where it would have to wait, which
happens to all only where they may have to. -/
structure Channel (ι : Type) [DecidableEq ι] (α : Type) where
  State : Type
  cap : Nat
  phase : State → ι → Phase α
  contents : State → List α
  put : State → ι → α → Option State
  get : State → ι → Option State
  go : State → ι → Option State
  Inv : State → Prop
  put_spec {q : State} {t : ι} (v : α) (hi : Inv q) (hp : phase q t = .idle) :
    ∃ q', put q t v = some q' ∧ Inv q' ∧ contents q' = contents q ∧
      phase q' = Function.update (phase q) t (.putting v)
  get_spec {q : State} {t : ι} (hi : Inv q) (hp : phase q t = .idle) :
    ∃ q', get q t = some q' ∧ Inv q' ∧ contents q' = contents q ∧
      phase q' = Function.update (phase q) t .getting
  go_spec {q q' : State} {t : ι} (hi : Inv q) (hg : go q t = some q') :
    Inv q' ∧ (phase q t).Moves cap (contents q) (phase q' t) (contents q') ∧
      ∀ u, u ≠ t → phase q' u = phase q u
  stuck_spec {q : State} (hi : Inv q) (hg : ∀ t, phase q t ≠ .idle → go q t = none) (t : ι) :
    (phase q t).Waits cap (contents q)

variable {ι κ : Type} {α : κ → Type} {σ γ β : Type} [DecidableEq ι] [DecidableEq κ]

/-- The places of threads, the channels, and what the threads share. -/
structure Sys (σ γ : Type) (ch : (c : κ) → Channel ι (α c)) where
  loc : ι → σ
  chan : (c : κ) → (ch c).State
  mem : γ

variable {ch : (c : κ) → Channel ι (α c)}

namespace Sys

/-- Thread `t` goes to `l`. -/
def goTo (s : Sys σ γ ch) (t : ι) (l : σ) : Sys σ γ ch :=
  { s with loc := Function.update s.loc t l }

/-- Channel `c` is `q`. -/
def setChan (s : Sys σ γ ch) (c : κ) (q : (ch c).State) : Sys σ γ ch :=
  { s with chan := Function.update s.chan c q }

@[simp] theorem chan_setChan (s : Sys σ γ ch) (c : κ) (q : (ch c).State) :
    (s.setChan c q).chan = Function.update s.chan c q := rfl

/-- Where a thread is in a call on a channel. -/
def phase (s : Sys σ γ ch) (c : κ) (t : ι) : Phase (α c) := (ch c).phase (s.chan c) t

/-- A call of thread `t` on channel `c` has come to `q`; if that is its end, the thread goes to
`l`. -/
def proceed (s : Sys σ γ ch) (t : ι) (c : κ) (l : σ) (q : (ch c).State) : Sys σ γ ch :=
  match (ch c).phase q t with
  | .idle => (s.setChan c q).goTo t l
  | _ => s.setChan c q

/-- The next step of a thread that puts `v`. -/
def stepPut (s : Sys σ γ ch) (t : ι) (c : κ) (v : α c) (k : σ) : Option (Sys σ γ ch) :=
  match s.phase c t with
  | .idle => ((ch c).put (s.chan c) t v).map (s.setChan c)
  | _ => ((ch c).go (s.chan c) t).map (s.proceed t c k)

/-- The next step of a thread that gets a value. -/
def stepGet (s : Sys σ γ ch) (t : ι) (c : κ) (k : α c → σ) : Option (Sys σ γ ch) :=
  match s.phase c t with
  | .idle => ((ch c).get (s.chan c) t).map (s.setChan c)
  | .fetched v => ((ch c).go (s.chan c) t).map (s.proceed t c (k v))
  | _ => ((ch c).go (s.chan c) t).map (s.setChan c)

/-- One step of thread `t`, where the outside world says `b`. -/
def step (p : Program ι α σ γ β) (s : Sys σ γ ch) : ι × β → Option (Sys σ γ ch)
  | (t, b) =>
    match p t (s.loc t) with
    | .stop => none
    | .work f => (f b s.mem).map fun (l, mem) ↦ { s.goTo t l with mem }
    | .put c v k => s.stepPut t c v k
    | .get c k => s.stepGet t c k

/-- The place of a thread if its call had returned with its value in the channel or out of it. -/
def place (p : Program ι α σ γ β) (s : Sys σ γ ch) (t : ι) : σ :=
  match p t (s.loc t) with
  | .put c _ k =>
    match s.phase c t with
    | .stored => k
    | _ => s.loc t
  | .get c k =>
    match s.phase c t with
    | .fetched v => k v
    | _ => s.loc t
  | _ => s.loc t

/-- The threads with queues in place of the channels. -/
def abs (p : Program ι α σ γ β) (s : Sys σ γ ch) : State ι α σ γ where
  loc := s.place p
  chan c := (ch c).contents (s.chan c)
  mem := s.mem

/-- Threads on channels. -/
def machine (p : Program ι α σ γ β) (init : Sys σ γ ch → Prop) : Machine (Sys σ γ ch) (ι × β) where
  init := init
  step := step p

/-- A thread is in no other call than that of its code. -/
def Linked (p : Program ι α σ γ β) (s : Sys σ γ ch) (t : ι) (c : κ) : Prop :=
  s.phase c t = .idle ∨
    (∃ v k, p t (s.loc t) = .put c v k ∧ (s.phase c t = .putting v ∨ s.phase c t = .stored)) ∨
    ∃ k, p t (s.loc t) = .get c k ∧ (s.phase c t = .getting ∨ ∃ v, s.phase c t = .fetched v)

/-- The channels are sound and their threads are where they should be. -/
structure Good (p : Program ι α σ γ β) (s : Sys σ γ ch) : Prop where
  inv : ∀ c, (ch c).Inv (s.chan c)
  linked : ∀ t c, s.Linked p t c

/-- No thread is in a call yet. -/
structure Fresh (s : Sys σ γ ch) : Prop where
  inv : ∀ c, (ch c).Inv (s.chan c)
  idle : ∀ c t, s.phase c t = .idle

variable {p : Program ι α σ γ β} {s s' : Sys σ γ ch} {t : ι} {c : κ}

theorem step_of_work {b : β} {f : β → γ → Option (σ × γ)} (hc : p t (s.loc t) = .work f) :
    s.step p (t, b) = (f b s.mem).map fun (l, mem) ↦ { s.goTo t l with mem } := by
  unfold step
  dsimp only
  rw [hc]

theorem step_of_put {b : β} {v : α c} {k : σ} (hc : p t (s.loc t) = .put c v k) :
    s.step p (t, b) = s.stepPut t c v k := by
  unfold step
  dsimp only
  rw [hc]

theorem step_of_get {b : β} {k : α c → σ} (hc : p t (s.loc t) = .get c k) :
    s.step p (t, b) = s.stepGet t c k := by
  unfold step
  dsimp only
  rw [hc]

omit [DecidableEq κ] in
theorem Fresh.good (h : s.Fresh) : s.Good p := ⟨h.inv, fun t c ↦ .inl (h.idle c t)⟩

theorem phase_setChan (c : κ) (q : (ch c).State) (u : ι) :
    (s.setChan c q).phase c u = (ch c).phase q u := by
  rw [phase, chan_setChan, Function.update_self]

theorem phase_setChan_of_ne {c d : κ} (hd : d ≠ c) (q : (ch c).State) (u : ι) :
    (s.setChan c q).phase d u = s.phase d u := by
  rw [phase, chan_setChan, Function.update_of_ne hd, phase]

omit [DecidableEq κ] in
/-- A thread that is in no call is where its code is. -/
theorem place_of_idle (h : ∀ c, s.phase c t = .idle) : s.place p t = s.loc t := by
  unfold place
  split
  · rw [h]
  · rw [h]
  · rfl

omit [DecidableEq κ] in
theorem place_of_put {v : α c} {k : σ} (hc : p t (s.loc t) = .put c v k) :
    s.place p t = match s.phase c t with
      | .stored => k
      | _ => s.loc t := by
  unfold place
  rw [hc]

omit [DecidableEq κ] in
theorem place_of_get {k : α c → σ} (hc : p t (s.loc t) = .get c k) :
    s.place p t = match s.phase c t with
      | .fetched v => k v
      | _ => s.loc t := by
  unfold place
  rw [hc]

omit [DecidableEq κ] in
theorem place_congr (hl : s'.loc t = s.loc t) (hp : ∀ c, s'.phase c t = s.phase c t) :
    s'.place p t = s.place p t := by
  unfold place
  rw [hl]
  simp only [hp]

omit [DecidableEq κ] in
theorem Linked.congr (h : s.Linked p t c) (hl : s'.loc t = s.loc t)
    (hp : s'.phase c t = s.phase c t) : s'.Linked p t c := by
  unfold Linked
  rw [hl, hp]
  exact h

omit [DecidableEq κ] in
theorem Linked.idle (h : s.Linked p t c) (hp : ∀ v k, p t (s.loc t) ≠ .put c v k)
    (hg : ∀ k, p t (s.loc t) ≠ .get c k) : s.phase c t = .idle := by
  rcases h with h | ⟨v, k, h, -⟩ | ⟨k, h, -⟩
  · exact h
  · exact absurd h (hp v k)
  · exact absurd h (hg k)

omit [DecidableEq κ] in
/-- A thread in a put is in no other call. -/
theorem Good.idle_of_put (h : s.Good p) {v : α c} {k : σ} (hc : p t (s.loc t) = .put c v k)
    {d : κ} (hd : d ≠ c) : s.phase d t = .idle := by
  apply (h.linked t d).idle
  · intro w l he
    rw [hc] at he
    cases he
    exact hd rfl
  · intro l he
    rw [hc] at he
    cases he

omit [DecidableEq κ] in
/-- A thread in a get is in no other call. -/
theorem Good.idle_of_get (h : s.Good p) {k : α c → σ} (hc : p t (s.loc t) = .get c k) {d : κ}
    (hd : d ≠ c) : s.phase d t = .idle := by
  apply (h.linked t d).idle
  · intro w l he
    rw [hc] at he
    cases he
  · intro l he
    rw [hc] at he
    cases he
    exact hd rfl

omit [DecidableEq κ] in
/-- A thread at work or at its end is in no call. -/
theorem Good.idle_of_none (h : s.Good p) (hp : ∀ c v k, p t (s.loc t) ≠ .put c v k)
    (hg : ∀ c k, p t (s.loc t) ≠ .get c k) (c : κ) : s.phase c t = .idle :=
  (h.linked t c).idle (hp c) (hg c)

/-- What a step on channel `c` leaves as it was. -/
theorem Good.setChan (h : s.Good p) {q : (ch c).State} (hi : (ch c).Inv q)
    (ho : ∀ u, u ≠ t → (ch c).phase q u = s.phase c u) (ht : (s.setChan c q).Linked p t c) :
    (s.setChan c q).Good p := by
  constructor
  · intro d
    by_cases hd : d = c
    · subst hd
      rwa [chan_setChan, Function.update_self]
    · rw [chan_setChan, Function.update_of_ne hd]
      exact h.inv d
  · intro u d
    by_cases hd : d = c
    · subst hd
      by_cases hu : u = t
      · rwa [hu]
      · exact (h.linked u d).congr rfl (by rw [phase_setChan, ho u hu])
    · exact (h.linked u d).congr rfl (phase_setChan_of_ne hd q u)

/-- A step on channel `c` shows in the queue and in the place of its thread only. -/
theorem abs_setChan {q : (ch c).State} {l : σ}
    (ho : ∀ u, u ≠ t → (ch c).phase q u = s.phase c u) (hl : (s.setChan c q).place p t = l) :
    (s.setChan c q).abs p = ((s.abs p).setChan c ((ch c).contents q)).goTo t l := by
  ext1
  · funext u
    by_cases hu : u = t
    · rw [hu, State.loc_goTo, Function.update_self]
      exact hl
    · rw [State.loc_goTo, Function.update_of_ne hu]
      have hph : ∀ d, (s.setChan c q).phase d u = s.phase d u := by
        intro d
        by_cases hd : d = c
        · subst hd
          rw [phase_setChan, ho u hu]
        · exact phase_setChan_of_ne hd q u
      exact place_congr rfl hph
  · funext d
    by_cases hd : d = c
    · subst hd
      rw [State.chan_goTo, State.chan_setChan, Function.update_self]
      change (ch d).contents ((s.setChan d q).chan d) = _
      rw [chan_setChan, Function.update_self]
    · rw [State.chan_goTo, State.chan_setChan, Function.update_of_ne hd]
      change (ch d).contents ((s.setChan c q).chan d) = (ch d).contents (s.chan d)
      rw [chan_setChan, Function.update_of_ne hd]
  · rfl

omit [DecidableEq κ] in
/-- A thread that is in no call goes to another place. -/
theorem Good.goTo (h : s.Good p) (ht : ∀ c, s.phase c t = .idle) (l : σ) :
    (s.goTo t l).Good p := by
  constructor
  · exact h.inv
  · intro u d
    by_cases hu : u = t
    · rw [hu]
      exact .inl (ht d)
    · exact (h.linked u d).congr (Function.update_of_ne hu ..) rfl

omit [DecidableEq κ] in
theorem abs_goTo (ht : ∀ c, s.phase c t = .idle) (l : σ) :
    (s.goTo t l).abs p = (s.abs p).goTo t l := by
  ext1
  · funext u
    by_cases hu : u = t
    · rw [hu, State.loc_goTo, Function.update_self]
      have hp : (s.goTo t l).place p t = (s.goTo t l).loc t := place_of_idle ht
      exact hp.trans (Function.update_self ..)
    · rw [State.loc_goTo, Function.update_of_ne hu]
      exact place_congr (Function.update_of_ne hu ..) fun _ ↦ rfl
  · rfl
  · rfl

/-- What a step of the threads on channels is with queues: one step, or none. -/
def Follows (p : Program ι α σ γ β) (s s' : Sys σ γ ch) (t : ι) (b : β) : Prop :=
  s'.Good p ∧ (s'.abs p = s.abs p ∨
    Network.step p (fun c ↦ (ch c).cap) (s.abs p) (t, b) = some (s'.abs p))

section

variable {b : β}

/-- A step in a call that shows only in how far the call is. -/
theorem Good.follows_setChan (h : s.Good p) {q : (ch c).State} (hi : (ch c).Inv q)
    (ho : ∀ u, u ≠ t → (ch c).phase q u = s.phase c u) (ht : (s.setChan c q).Linked p t c)
    (hq : (ch c).contents q = (ch c).contents (s.chan c))
    (hl : (s.setChan c q).place p t = s.place p t) : Follows p s (s.setChan c q) t b := by
  refine ⟨h.setChan hi ho ht, .inl ?_⟩
  rw [abs_setChan ho hl, State.setChan_self hq]
  exact State.goTo_self (s.abs p) t

/-- A step that ends a call whose value is in the channel or out of it. -/
theorem Good.follows_return (h : s.Good p) {q : (ch c).State} {l : σ} (hi : (ch c).Inv q)
    (ho : ∀ u, u ≠ t → (ch c).phase q u = s.phase c u) (ht : (ch c).phase q t = .idle)
    (hd : ∀ d, d ≠ c → s.phase d t = .idle)
    (hq : (ch c).contents q = (ch c).contents (s.chan c)) (hl : s.place p t = l) :
    Follows p s ((s.setChan c q).goTo t l) t b := by
  have hidle : ∀ d, (s.setChan c q).phase d t = .idle := by
    intro d
    by_cases hdc : d = c
    · subst hdc
      rwa [phase_setChan]
    · rw [phase_setChan_of_ne hdc]
      exact hd d hdc
  refine ⟨(h.setChan hi ho (.inl (hidle c))).goTo hidle l, .inl ?_⟩
  have hgo : ∀ (a : State ι α σ γ) (l' : σ), (a.goTo t l').goTo t l = a.goTo t l := by
    intro a l'
    ext1
    · exact Function.update_idem ..
    · rfl
    · rfl
  rw [abs_goTo hidle, abs_setChan ho rfl, State.setChan_self hq, hgo, ← hl]
  exact State.goTo_self (s.abs p) t

/-- A step in a put. -/
theorem Good.step_put (h : s.Good p) {v : α c} {k : σ} (hc : p t (s.loc t) = .put c v k)
    (hs : s.step p (t, b) = some s') : Follows p s s' t b := by
  rw [step_of_put hc, stepPut] at hs
  have hlinked (q : (ch c).State) (hq : (ch c).phase q t = .putting v ∨
      (ch c).phase q t = .stored) : (s.setChan c q).Linked p t c := by
    refine .inr (.inl ⟨v, k, hc, ?_⟩)
    rwa [phase_setChan]
  have hplace (q : (ch c).State) : (s.setChan c q).place p t =
      match (ch c).phase q t with
      | .stored => k
      | _ => s.loc t := by
    have hc' : p t ((s.setChan c q).loc t) = .put c v k := hc
    rw [place_of_put hc', phase_setChan]
    rfl
  have hbefore := place_of_put hc
  rcases h.linked t c with hp | ⟨w, l, he, hp⟩ | ⟨l, he, -⟩
  · -- the call
    rw [hp] at hs hbefore
    rcases Option.map_eq_some_iff.mp hs with ⟨q, hq, rfl⟩
    rcases (ch c).put_spec v (h.inv c) hp with ⟨q', hq', hi, hcont, hph⟩
    rw [hq] at hq'
    cases hq'
    have ht : (ch c).phase q t = .putting v := by rw [hph, Function.update_self]
    have ho : ∀ u, u ≠ t → (ch c).phase q u = s.phase c u := by
      intro u hu
      rw [hph, Function.update_of_ne hu]
      rfl
    exact h.follows_setChan hi ho (hlinked q (.inl ht)) hcont (by rw [hplace, ht, hbefore])
  · rw [hc] at he
    cases he
    have hgo : ∃ q, (ch c).go (s.chan c) t = some q ∧ s' = s.proceed t c k q := by
      rcases hp with hp | hp
      · rw [hp] at hs
        rcases Option.map_eq_some_iff.mp hs with ⟨q, hq, rfl⟩
        exact ⟨q, hq, rfl⟩
      · rw [hp] at hs
        rcases Option.map_eq_some_iff.mp hs with ⟨q, hq, rfl⟩
        exact ⟨q, hq, rfl⟩
    rcases hgo with ⟨q, hq, rfl⟩
    rcases (ch c).go_spec (h.inv c) hq with ⟨hi, hm, ho⟩
    change (s.phase c t).Moves _ _ _ _ at hm
    rcases hp with hp | hp
    · rw [hp] at hm hbefore
      generalize hv : (ch c).contents (s.chan c) = vs at hm
      generalize hv' : (ch c).contents q = vs' at hm
      generalize ht : (ch c).phase q t = x at hm
      cases hm with
      | stay _ =>
        rw [proceed, ht]
        exact h.follows_setChan hi ho (hlinked q (.inl ht)) (hv'.trans hv.symm)
          (by rw [hplace, ht, hbefore])
      | store hr =>
        rw [proceed, ht]
        refine ⟨h.setChan hi ho (hlinked q (.inr ht)), .inr ?_⟩
        have hat : (s.abs p).loc t = s.loc t := hbefore
        rw [abs_setChan ho (by rw [hplace, ht]), hv', ← hv]
        have hroom : ((s.abs p).chan c).length < (ch c).cap := by
          change ((ch c).contents (s.chan c)).length < _
          rw [hv]
          exact hr
        exact Network.step_put (by rw [hat]; exact hc) hroom
    · rw [hp] at hm hbefore
      generalize hv : (ch c).contents (s.chan c) = vs at hm
      generalize hv' : (ch c).contents q = vs' at hm
      generalize ht : (ch c).phase q t = x at hm
      cases hm with
      | stay _ =>
        rw [proceed, ht]
        exact h.follows_setChan hi ho (hlinked q (.inr ht)) (hv'.trans hv.symm)
          (by rw [hplace, ht, hbefore])
      | posted =>
        rw [proceed, ht]
        exact h.follows_return hi ho ht (fun d hd ↦ h.idle_of_put hc hd) (hv'.trans hv.symm)
          hbefore
  · rw [hc] at he
    cases he

/-- A step in a get. -/
theorem Good.step_get (h : s.Good p) {k : α c → σ} (hc : p t (s.loc t) = .get c k)
    (hs : s.step p (t, b) = some s') : Follows p s s' t b := by
  rw [step_of_get hc, stepGet] at hs
  have hlinked (q : (ch c).State) (hq : (ch c).phase q t = .getting ∨
      ∃ v, (ch c).phase q t = .fetched v) : (s.setChan c q).Linked p t c := by
    refine .inr (.inr ⟨k, hc, ?_⟩)
    rwa [phase_setChan]
  have hplace (q : (ch c).State) : (s.setChan c q).place p t =
      match (ch c).phase q t with
      | .fetched v => k v
      | _ => s.loc t := by
    have hc' : p t ((s.setChan c q).loc t) = .get c k := hc
    rw [place_of_get hc', phase_setChan]
    rfl
  have hbefore := place_of_get hc
  rcases h.linked t c with hp | ⟨w, l, he, -⟩ | ⟨l, he, hp | ⟨v, hp⟩⟩
  · -- the call
    rw [hp] at hs hbefore
    rcases Option.map_eq_some_iff.mp hs with ⟨q, hq, rfl⟩
    rcases (ch c).get_spec (h.inv c) hp with ⟨q', hq', hi, hcont, hph⟩
    rw [hq] at hq'
    cases hq'
    have ht : (ch c).phase q t = .getting := by rw [hph, Function.update_self]
    have ho : ∀ u, u ≠ t → (ch c).phase q u = s.phase c u := by
      intro u hu
      rw [hph, Function.update_of_ne hu]
      rfl
    exact h.follows_setChan hi ho (hlinked q (.inl ht)) hcont (by rw [hplace, ht, hbefore])
  · rw [hc] at he
    cases he
  · rw [hp] at hs
    rcases Option.map_eq_some_iff.mp hs with ⟨q, hq, rfl⟩
    rcases (ch c).go_spec (h.inv c) hq with ⟨hi, hm, ho⟩
    change (s.phase c t).Moves _ _ _ _ at hm
    rw [hp] at hm hbefore
    generalize hv : (ch c).contents (s.chan c) = vs at hm
    generalize hv' : (ch c).contents q = vs' at hm
    generalize ht : (ch c).phase q t = x at hm
    cases hm with
    | stay _ =>
      exact h.follows_setChan hi ho (hlinked q (.inl ht)) (hv'.trans hv.symm)
        (by rw [hplace, ht, hbefore])
    | @fetch v _ =>
      refine ⟨h.setChan hi ho (hlinked q (.inr ⟨v, ht⟩)), .inr ?_⟩
      have hat : (s.abs p).loc t = s.loc t := hbefore
      rw [abs_setChan ho (by rw [hplace, ht]), hv']
      exact Network.step_get (by rw [hat]; exact hc) hv
  · rw [hp] at hs
    rcases Option.map_eq_some_iff.mp hs with ⟨q, hq, rfl⟩
    rcases (ch c).go_spec (h.inv c) hq with ⟨hi, hm, ho⟩
    change (s.phase c t).Moves _ _ _ _ at hm
    rw [hp] at hm hbefore
    generalize hv : (ch c).contents (s.chan c) = vs at hm
    generalize hv' : (ch c).contents q = vs' at hm
    generalize ht : (ch c).phase q t = x at hm
    cases hm with
    | stay _ =>
      rw [proceed, ht]
      exact h.follows_setChan hi ho (hlinked q (.inr ⟨v, ht⟩)) (hv'.trans hv.symm)
        (by rw [hplace, ht, hbefore])
    | freed =>
      rw [proceed, ht]
      exact h.follows_return hi ho ht (fun d hd ↦ h.idle_of_get hc hd) (hv'.trans hv.symm) hbefore

/-- A step of a thread at work. -/
theorem Good.step_work (h : s.Good p) {f : β → γ → Option (σ × γ)}
    (hc : p t (s.loc t) = .work f) (hs : s.step p (t, b) = some s') : Follows p s s' t b := by
  rw [step_of_work hc] at hs
  rcases Option.map_eq_some_iff.mp hs with ⟨⟨l, mem⟩, hf, rfl⟩
  have hidle := h.idle_of_none (fun c v k he ↦ by rw [hc] at he; cases he)
    (fun c k he ↦ by rw [hc] at he; cases he)
  have hgo := h.goTo hidle l
  have hat : (s.abs p).loc t = s.loc t := place_of_idle hidle
  refine ⟨⟨hgo.inv, hgo.linked⟩, .inr ?_⟩
  have habs : ({ s.goTo t l with mem } : Sys σ γ ch).abs p = { (s.goTo t l).abs p with mem } := rfl
  rw [habs, abs_goTo hidle]
  exact Network.step_work (by rw [hat]; exact hc) hf

/-- Every step of the threads on channels is one with queues, or none. -/
theorem Good.step (h : s.Good p) (hs : s.step p (t, b) = some s') : Follows p s s' t b := by
  cases hc : p t (s.loc t) with
  | stop =>
    unfold Sys.step at hs
    dsimp only at hs
    rw [hc] at hs
    cases hs
  | work f => exact h.step_work hc hs
  | put c v k => exact h.step_put hc hs
  | get c k => exact h.step_get hc hs

end

/-- What the threads on channels do, they do with queues. -/
theorem refines {init : Sys σ γ ch → Prop} {init' : State ι α σ γ → Prop}
    (h0 : ∀ s, init s → s.Fresh ∧ init' (s.abs p)) (h : (machine p init).Reachable s) :
    s.Good p ∧ (Network.machine p (fun c ↦ (ch c).cap) init').Reachable (s.abs p) := by
  refine h.invariant
    (I := fun s ↦ s.Good p ∧ (Network.machine p (fun c ↦ (ch c).cap) init').Reachable (s.abs p))
    ?_ ?_
  · intro s hs
    exact ⟨(h0 s hs).1.good, .init (h0 s hs).2⟩
  · rintro s ⟨t, b⟩ s' ⟨hg, hr⟩ hs
    rcases hg.step hs with ⟨hg', habs | hstep⟩
    · exact ⟨hg', by rwa [habs]⟩
    · exact ⟨hg', hr.step (a := (t, b)) hstep⟩

/-! ### Where no thread can go on -/

/-- A thread in a call that cannot go on has no step. -/
theorem Good.go_eq_none (h : s.Good p) {b : β} (hs : s.step p (t, b) = none)
    (ht : s.phase c t ≠ .idle) : (ch c).go (s.chan c) t = none := by
  rcases h.linked t c with hp | ⟨v, k, hc, hp | hp⟩ | ⟨k, hc, hp | ⟨v, hp⟩⟩
  · exact absurd hp ht
  · rw [step_of_put hc, stepPut, hp] at hs
    exact Option.map_eq_none_iff.mp hs
  · rw [step_of_put hc, stepPut, hp] at hs
    exact Option.map_eq_none_iff.mp hs
  · rw [step_of_get hc, stepGet, hp] at hs
    exact Option.map_eq_none_iff.mp hs
  · rw [step_of_get hc, stepGet, hp] at hs
    exact Option.map_eq_none_iff.mp hs

/-- A thread that cannot go on with the channels cannot with queues, if no other can. -/
theorem Good.stuck (h : s.Good p) {b : β} (hs : ∀ t, s.step p (t, b) = none) (t : ι) :
    Network.step p (fun c ↦ (ch c).cap) (s.abs p) (t, b) = none := by
  have hwaits (c : κ) : (s.phase c t).Waits (ch c).cap ((ch c).contents (s.chan c)) :=
    (ch c).stuck_spec (h.inv c) (fun u hu ↦ h.go_eq_none (hs u) hu) t
  have hstep := hs t
  rw [step_eq_none_iff]
  change Blocked _ _ _ (p t (s.place p t))
  cases hc : p t (s.loc t) with
  | stop =>
    have hat : s.place p t = s.loc t := by
      unfold place
      rw [hc]
    rw [hat, hc]
    trivial
  | work f =>
    have hat : s.place p t = s.loc t := by
      unfold place
      rw [hc]
    rw [step_of_work hc] at hstep
    rw [hat, hc]
    exact Option.map_eq_none_iff.mp hstep
  | put c v k =>
    have hw := hwaits c
    rcases h.linked t c with hp | ⟨w, l, he, hp | hp⟩ | ⟨l, he, -⟩
    · rcases (ch c).put_spec v (h.inv c) hp with ⟨q, hq, -⟩
      rw [step_of_put hc, stepPut, hp, hq] at hstep
      cases hstep
    · have hat : s.place p t = s.loc t := by
        unfold place
        rw [hc]
        dsimp only
        rw [hp]
      rw [hp] at hw
      rw [hat, hc]
      exact hw
    · rw [hp] at hw
      exact hw.elim
    · rw [hc] at he
      cases he
  | get c k =>
    have hw := hwaits c
    rcases h.linked t c with hp | ⟨w, l, he, -⟩ | ⟨l, he, hp | ⟨v, hp⟩⟩
    · rcases (ch c).get_spec (h.inv c) hp with ⟨q, hq, -⟩
      rw [step_of_get hc, stepGet, hp, hq] at hstep
      cases hstep
    · rw [hc] at he
      cases he
    · have hat : s.place p t = s.loc t := by
        unfold place
        rw [hc]
        dsimp only
        rw [hp]
      rw [hp] at hw
      rw [hat, hc]
      exact hw
    · rw [hp] at hw
      exact hw.elim

end Sys
end CtrlrFx.Base.Network
