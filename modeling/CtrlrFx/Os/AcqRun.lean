import CtrlrFx.Os.AcqData

/-!
# Runs of the acquisition demo

The count of the acquisition demo is right and its pointers are good whatever the threads do when,
and where it stops it is over, unless `main` waits for a thread that nobody feeds any more.
-/

namespace CtrlrFx.Os.AcqDemo
open Base Data Network

variable {A : Type} [DecidableEq A]

/-- Flags, buffers and values are as they should be. -/
structure Sound (addrs : List A) (S : Nat) (s : St A) : Prop where
  control : Control s
  owned : Owned addrs s
  values : Values addrs S s

theorem Sound.effect {addrs : List A} {S N : Nat} {s s' : St A} {t : Thread}
    (h : Sound addrs S s) (hd : addrs.Nodup) (he : Effect code (fun _ ↦ N) s t s') :
    Sound addrs S s' where
  control := h.control.step (step_of_effect he) fun _ _ _ ↦ h.values.no_crash h.owned hd
  owned := h.owned.effect he
  values := h.values.step h.control h.owned hd (step_of_effect he)

omit [DecidableEq A] in
/-- All buffers in a new set are empty, and no thread has one. -/
theorem sound_start {addrs : List A} {S : Nat} {s : St A} {heap : A → Buffer UInt16}
    (hl : s.loc = startPlace) (hm : s.mem = startMem heap) (he : s.chan .empty = addrs.map some)
    (hc : ∀ c, c ≠ .empty → s.chan c = []) (hcap : ∀ a ∈ addrs, (heap a).capacity = S) :
    Sound addrs S s := by
  have hloc (t : Stage) : s.loc (some t) = .top := by rw [hl]; rfl
  have hchan (c : Que) (p : Option A) (hp : p ∈ s.chan c) : c = .empty ∧ ∃ a, p = some a := by
    by_cases hce : c = .empty
    · rw [hce, he] at hp
      rcases List.mem_map.mp hp with ⟨a, -, rfl⟩
      exact ⟨hce, a, rfl⟩
    · rw [hc c hce] at hp
      cases hp
  refine ⟨⟨⟨.input, ?_, ?_, ?_⟩, fun t ↦ ?_, fun t hn ↦ ?_⟩, ?_, ?_, fun t ↦ ?_, ?_, ?_, ?_⟩
  · rw [hl]
    rfl
  · rw [hm]
    rfl
  · intro t ht
    cases ht
  · rw [hloc, hm]
    rfl
  · rcases (hchan _ _ hn).2 with ⟨a, ha⟩
    cases ha
  · have hother (c : Que) (_ : c ∈ Finset.univ) (hne : c ≠ .empty) :
        ((s.chan c).map bag).sum = 0 := by
      rw [hc c hne]
      rfl
    have hhands : ∑ t, bag (s.loc t).held = 0 := by
      apply Finset.sum_eq_zero
      intro t _
      rw [hl]
      cases t <;> rfl
    rw [Owned, stock, hhands, add_zero,
      Finset.sum_eq_single_of_mem Que.empty (Finset.mem_univ _) hother, he, List.map_map]
    exact sum_map_singleton addrs
  · rw [hm]
    exact hcap
  · rw [hloc]
    cases t <;> trivial
  · intro c b hne hb
    exact absurd (hchan _ _ hb).1 hne
  · intro _
    have hpart (t : Stage) : part s t = [] := by
      rw [part, hloc]
      cases t <;> rfl
    have hline (c : Que) (hne : c ≠ .empty) : line s c = [] := by
      rw [line, hc c hne]
      rfl
    rw [hm, stream, hpart, hpart, hpart, hline .finished (by decide),
      hline .raw (by decide)]
    rfl
  · rw [hm]
    rfl

/-- The threads of the demo start on a sound set of queues. -/
theorem start_sound {addrs : List A} {S : Nat} {s : Demo A addrs.length}
    (h : (machine addrs S).init s) : s.Fresh ∧ Sound addrs S (s.abs code) := by
  rcases h with ⟨heap, cells, blocks, q, hcells, hlen, hblocks, hq, rfl⟩
  have hfst : ((addrs.map some).zip blocks).map Prod.fst = addrs.map some :=
    List.map_fst_zip (by rw [List.length_map, hlen])
  have hzip : ((addrs.map some).zip blocks).length = addrs.length := by
    rw [List.length_zip, List.length_map, hlen, Nat.min_self]
  rw [← hzip] at hcells
  rcases AcqBufQueue.resize_spec heap (by decide) hcells with ⟨q', hq', hn, hidle, h0, hne⟩
  rw [hq] at hq'
  cases hq'
  rw [hzip] at hidle
  have hindex (c : Que) : c.index < q.nque := by
    rw [hn]
    cases c <;> decide
  have hfresh : Sys.Fresh
      ({ loc := startPlace, chan := fun c ↦ MsgQueue.Sys.rest (q.que c.index),
         mem := startMem fun a ↦ q.heap (some a) } : Demo A addrs.length) := by
    refine ⟨fun c ↦ ?_, fun c t ↦ rfl⟩
    have hserves : MsgQueue.Serves (q.que c.index).capacity
        (MsgQueue.Sys.rest (q.que c.index) : MsgQueue.Sys (Option A) Thread) :=
      (hidle.quiet _ (hindex c)).serves
    rwa [hidle.capacity_eq _ (hindex c)] at hserves
  refine ⟨hfresh, sound_start ?_ rfl ?_ ?_ ?_⟩
  · funext t
    exact Sys.place_of_idle fun c ↦ hfresh.idle c t
  · exact h0.trans hfst
  · intro c hc
    apply hne
    cases c with
    | empty => exact absurd rfl hc
    | raw | finished => decide
  · intro a ha
    rcases AcqBufQueue.fill_heap hq (some a) with ⟨m, hm, hv⟩ | ⟨hm, -⟩
    · rw [hv, Buffer.capacity_alloc]
      exact hblocks m (List.of_mem_zip hm).2
    · have hmem : some a ∈ ((addrs.map some).zip blocks).map Prod.fst := by
        rw [hfst]
        exact List.mem_map_of_mem ha
      rcases List.mem_map.mp hmem with ⟨⟨_, m⟩, hp, rfl⟩
      exact absurd hp (hm m)

/-- Every run of the demo is sound. -/
theorem sound_of_reachable {addrs : List A} {S : Nat} (hd : addrs.Nodup)
    {s : Demo A addrs.length} (h : (machine addrs S).Reachable s) :
    s.Good code ∧ Sound addrs S (s.abs code) := by
  have hstart (s : Demo A addrs.length) (h : (machine addrs S).init s) :
      s.Fresh ∧ Sound addrs S (s.abs code) := start_sound h
  rcases Sys.refines hstart h with ⟨hg, hr⟩
  refine ⟨hg, hr.invariant (fun _ ↦ id) ?_⟩
  rintro s ⟨t, b⟩ s' hs hstep
  exact hs.effect hd (step_effect hstep)

/-! ### Where the demo stops -/

/-- Where no thread of the demo can go on: all of it is over, or `main` waits for a thread that
waits for a buffer which no thread will put, or for room which no thread will make. -/
inductive Stuck (N : Nat) (s : St A) : Prop where
  | atEnd (hm : s.loc none = .main .exited) (h : ∀ t, ∃ p, s.loc (some t) = .ended p)
  | starving (hm : s.loc none = .main (.waiting .proc)) (hc : ∃ p, s.loc (some .comm) = .ended p)
      (hp : s.loc (some .proc) = .getting) (hr : s.chan .raw = [])
      (ha : s.loc (some .acq) = .getting) (he : s.chan .empty = [])
  | unreleased (hm : s.loc none = .main (.waiting .proc))
      (hc : ∃ p, s.loc (some .comm) = .ended p) (hp : s.loc (some .proc) = .releasing none)
      (hf : (s.chan .finished).length = N) (ha : s.loc (some .acq) = .getting)
      (he : s.chan .empty = [])
  | unfed (hm : s.loc none = .main (.waiting .acq))
      (h : ∀ t, t ≠ .acq → ∃ p, s.loc (some t) = .ended p)
      (ha : s.loc (some .acq) = .getting) (he : s.chan .empty = [])
  | unread (hm : s.loc none = .main (.waiting .acq))
      (h : ∀ t, t ≠ .acq → ∃ p, s.loc (some t) = .ended p)
      (ha : s.loc (some .acq) = .releasing none) (hr : (s.chan .raw).length = N)

/-- Where a thread of a sound demo can have to stay. -/
theorem Sound.blocked {addrs : List A} {S : Nat} {s : St A} (h : Sound addrs S s) {t : Stage}
    (hb : Blocked (fun _ ↦ addrs.length) s () (code (some t) (s.loc (some t)))) :
    (∃ p, s.loc (some t) = .ended p) ∨ s.loc (some t) = .getting ∧ s.chan t.source = [] ∨
      s.loc (some t) = .releasing none ∧ (s.chan t.target).length = addrs.length ∧
        ∀ u, (s.loc u).held = none := by
  have hfull (ho : ¬(s.loc (some t)).Over) (hl : addrs.length ≤ (s.chan t.target).length) :
      (s.chan t.target).length = addrs.length ∧ ∀ u, (s.loc u).held = none := by
    have hnone : none ∉ s.chan t.target := fun hn ↦ ho (h.control.null t hn).2
    have hle (u : Thread) := Multiset.card_le_card
      (held_add_chan_le (fun _ ↦ bag) (fun _ l ↦ bag l.held) s u t.target)
    rw [h.owned] at hle
    simp only [Multiset.card_add, card_sum_bag hnone, Multiset.coe_card] at hle
    refine ⟨?_, fun u ↦ ?_⟩
    · have hu := hle none
      omega
    · have hu := hle u
      cases hh : (s.loc u).held with
      | none => rfl
      | some b =>
        rw [hh, bag_some, Multiset.card_singleton] at hu
        omega
  have hok := h.control.ok t
  cases hp : s.loc (some t) with
  | top =>
    rw [hp] at hb
    cases hb
  | getting =>
    rw [hp] at hb
    exact .inr (.inl ⟨rfl, hb⟩)
  | got p =>
    rw [hp] at hb
    cases hb
  | working b i =>
    rw [hp] at hb
    cases hb
  | putting b =>
    rw [hp] at hb hfull
    have hnone := (hfull id hb).2 (some t)
    rw [hp] at hnone
    cases hnone
  | releasing p =>
    rw [hp] at hb hfull
    rcases hfull id hb with ⟨hl, hnone⟩
    have hself := hnone (some t)
    rw [hp] at hself
    cases hself
    exact .inr (.inr ⟨rfl, hl, hnone⟩)
  | ending p =>
    rw [hp] at hb
    cases hb
  | ended p => exact .inl ⟨p, rfl⟩
  | crashed p =>
    rw [hp] at hok
    exact hok.elim
  | main m =>
    rw [hp] at hok
    exact hok.elim

/-- Where no thread can go on, `main` does not wait for `CommThread`: some queue has a buffer. -/
theorem Sound.stuck {addrs : List A} {S : Nat} {s : St A} (h : Sound addrs S s)
    (hne : addrs ≠ [])
    (hb : ∀ t, Blocked (fun _ ↦ addrs.length) s () (code t (s.loc t))) :
    Stuck addrs.length s := by
  rcases h.control.main with ⟨m, hm, hq, hd⟩
  have hmain := hb none
  rw [hm] at hmain
  -- a thread that was not told to quit is in `get`
  have hloop {t : Stage} (ht : m.told t = false) :
      s.loc (some t) = .getting ∧ s.chan t.source = [] := by
    rcases h.blocked (hb (some t)) with ⟨p, hp⟩ | hp | ⟨hp, -⟩
    · have hquit := (h.control.at_place hp).2
      rw [hq, ht] at hquit
      cases hquit
    · exact hp
    · have hquit := (h.control.at_place hp).2.1
      rw [hq, ht] at hquit
      cases hquit
  have hended {t : Stage} (ht : m.seen t = true) : ∃ p, s.loc (some t) = .ended p := by
    have hdone := hd t ht
    rcases h.blocked (hb (some t)) with hp | ⟨hp, -⟩ | ⟨hp, -⟩
    · exact hp
    · have hnot : s.mem.done t = false := h.control.at_place hp
      rw [hdone] at hnot
      cases hnot
    · have hnot := (h.control.at_place hp).1
      rw [hdone] at hnot
      cases hnot
  cases m with
  | input => cases hmain
  | quitting t => cases hmain
  | exited => exact .atEnd hm fun t ↦ hended rfl
  | waiting t =>
    have hnot : s.mem.done t = false := by
      by_contra hdone
      rw [Bool.not_eq_false] at hdone
      have hsome : (if s.mem.done t = true then some ((Place.main (.next t) : Place A), s.mem)
          else none) = none := hmain
      rw [if_pos hdone] at hsome
      cases hsome
    have hself : s.loc (some t) = .getting ∧ s.chan t.source = [] ∨
        s.loc (some t) = .releasing none ∧ (s.chan t.target).length = addrs.length := by
      rcases h.blocked (hb (some t)) with ⟨p, hp⟩ | hp | ⟨hp, hl, -⟩
      · have hdone := (h.control.at_place hp).1
        rw [hnot] at hdone
        cases hdone
      · exact .inl hp
      · exact .inr ⟨hp, hl⟩
    cases t with
    | comm =>
      rcases hloop (t := .proc) rfl with ⟨hpp, hr⟩
      rcases hloop (t := .acq) rfl with ⟨hpa, he⟩
      rcases hself with ⟨hpc, hf⟩ | ⟨hpc, -⟩
      · have hques : ∑ c, ((s.chan c).map bag).sum = 0 := by
          apply Finset.sum_eq_zero
          intro c _
          have hc : s.chan c = [] := by
            cases c with
            | empty => exact he
            | raw => exact hr
            | finished => exact hf
          rw [hc]
          rfl
        have hhands : ∑ t, bag (s.loc t).held = 0 := by
          apply Finset.sum_eq_zero
          rintro (_ | _ | _ | _) _
          · rw [hm]
            rfl
          · rw [hpc]
            rfl
          · rw [hpp]
            rfl
          · rw [hpa]
            rfl
        have hall := h.owned
        rw [Owned, stock, hques, hhands, add_zero] at hall
        exact absurd (Multiset.coe_eq_zero addrs |>.mp hall.symm) hne
      · exact absurd rfl (h.control.at_place hpc).2.2
    | proc =>
      rcases hloop (t := .acq) rfl with ⟨hpa, he⟩
      have hc := hended (t := .comm) rfl
      rcases hself with ⟨hp, hr⟩ | ⟨hp, hl⟩
      · exact .starving hm hc hp hr hpa he
      · exact .unreleased hm hc hp hl hpa he
    | acq =>
      have hothers (t : Stage) (ht : t ≠ .acq) : ∃ p, s.loc (some t) = .ended p := by
        cases t with
        | comm | proc => exact hended rfl
        | acq => exact absurd rfl ht
      rcases hself with ⟨hp, he⟩ | ⟨hp, hl⟩
      · exact .unfed hm hothers hp he
      · exact .unread hm hothers hp hl

/-- Conversely none can go on there. -/
theorem Stuck.blocked {N : Nat} {s : St A} (h : Stuck N s) (hk : Control s) (t : Thread)
    (b : Unit) : Blocked (fun _ ↦ N) s b (code t (s.loc t)) := by
  have hwait {u : Stage} (hm : s.loc none = .main (.waiting u)) (hd : s.mem.done u = false) :
      Blocked (fun _ ↦ N) s b (code none (s.loc none)) := by
    rw [hm]
    change (if s.mem.done u = true then some _ else none) = none
    rw [hd]
    rfl
  have hended {u : Stage} (hp : ∃ p, s.loc (some u) = .ended p) :
      Blocked (fun _ ↦ N) s b (code (some u) (s.loc (some u))) := by
    rcases hp with ⟨p, hp⟩
    rw [hp]
    trivial
  have hget {u : Stage} (hp : s.loc (some u) = .getting) (hc : s.chan u.source = []) :
      Blocked (fun _ ↦ N) s b (code (some u) (s.loc (some u))) := by
    rw [hp]
    exact hc
  have hrelease {u : Stage} (hp : s.loc (some u) = .releasing none)
      (hc : (s.chan u.target).length = N) :
      Blocked (fun _ ↦ N) s b (code (some u) (s.loc (some u))) := by
    rw [hp]
    exact Nat.le_of_eq hc.symm
  cases h with
  | atEnd hm h =>
    cases t with
    | none =>
      rw [hm]
      trivial
    | some u => exact hended (h u)
  | starving hm hc hp hr ha he =>
    rcases t with _ | _ | _ | _
    · exact hwait hm (hk.at_place hp)
    · exact hended hc
    · exact hget hp hr
    · exact hget ha he
  | unreleased hm hc hp hf ha he =>
    rcases t with _ | _ | _ | _
    · exact hwait hm (hk.at_place hp).1
    · exact hended hc
    · exact hrelease hp hf
    · exact hget ha he
  | unfed hm h ha he =>
    rcases t with _ | _ | _ | _
    · exact hwait hm (hk.at_place ha)
    · exact hended (h .comm nofun)
    · exact hended (h .proc nofun)
    · exact hget ha he
  | unread hm h ha hr =>
    rcases t with _ | _ | _ | _
    · exact hwait hm (hk.at_place ha).1
    · exact hended (h .comm nofun)
    · exact hended (h .proc nofun)
    · exact hrelease ha hr

/-! ### Runs with the code of the queues -/

/-- Whatever the threads do when, `CommThread` reports no error, no thread uses a null pointer, and
every buffer is in one queue or with one thread. -/
theorem demo_sound {addrs : List A} {S : Nat} (hd : addrs.Nodup) {s : Demo A addrs.length}
    (h : (machine addrs S).Reachable s) :
    s.mem.errors = 0 ∧ (∀ t p, s.loc t ≠ .crashed p) ∧ Owned addrs (s.abs code) := by
  rcases sound_of_reachable hd h with ⟨-, hs⟩
  refine ⟨hs.values.errors, fun t p hp ↦ ?_, hs.owned⟩
  have hplace : (s.abs code).loc t = .crashed p := by
    change s.place code t = _
    unfold Sys.place
    rw [hp]
    cases t <;> rfl
  cases t with
  | none =>
    rcases hs.control.main with ⟨m, hm, -⟩
    rw [hm] at hplace
    cases hplace
  | some t => exact hs.control.at_place hplace

/-- The set at the end of a call, or where it has come to. -/
def state : Outcome (AcqBufQueue (Option Nat) UInt16) → AcqBufQueue (Option Nat) UInt16
  | .done s | .blocked s | .outside _ s | .running s => s

/-- A set with one buffer of one item. -/
def single : AcqBufQueue (Option Nat) UInt16 :=
  state (AcqBufQueue.resize (fun _ ↦ .empty) 3 (fun _ ↦ [none]) [(some 0, [7])])

/-- The demo on that set before its first step. -/
def singleStart : Demo Nat 1 where
  loc := startPlace
  chan c := MsgQueue.Sys.rest (single.que c.index)
  mem := startMem fun a ↦ single.heap (some a)

theorem init_singleStart : (machine [0] 1).init singleStart :=
  ⟨fun _ ↦ .empty, fun _ ↦ [none], [[7]], single, fun _ _ ↦ rfl, rfl,
    fun _ hm ↦ by rw [List.mem_singleton.mp hm]; rfl, rfl, rfl⟩

/-- So many steps of a thread. -/
def turns (t : Thread) (n : Nat) : List (Thread × Unit) := List.replicate n (t, ())

/-- One buffer goes through all three threads. -/
theorem demo_sound_single : ∃ s : Demo Nat 1, s.mem.commCtr = 2 ∧ s.mem.errors = 0 ∧
    (∀ t p, s.loc t ≠ .crashed p) ∧ Owned [0] (s.abs code) := by
  have hsome : ((machine [0] 1).run singleStart
      (turns (some .acq) 12 ++ turns (some .proc) 12 ++ turns (some .comm) 8)).map
        (fun s ↦ s.mem.commCtr) = some 2 := by decide
  rcases Option.map_eq_some_iff.mp hsome with ⟨s, hs, hc⟩
  exact ⟨s, hc, demo_sound (by decide) ((Machine.Reachable.init init_singleStart).run hs)⟩

/-- Where no thread can go on the demo is over or hangs in its shutdown, and it never leaves such a
state. -/
theorem demo_stuck {addrs : List A} {S : Nat} (hd : addrs.Nodup) (hne : addrs ≠ [])
    {s : Demo A addrs.length} (h : (machine addrs S).Reachable s) :
    ((∀ t, s.step code (t, ()) = none) → Stuck addrs.length (s.abs code)) ∧
      (Stuck addrs.length (s.abs code) →
        ∀ acts s', (machine addrs S).run s acts = some s' → s'.abs code = s.abs code) := by
  rcases sound_of_reachable hd h with ⟨hg, hs⟩
  constructor
  · intro hnone
    exact hs.stuck hne fun t ↦ step_eq_none_iff.mp (hg.stuck hnone t)
  · intro hstuck acts s' hrun
    have hinv : s'.Good code ∧ s'.abs code = s.abs code := by
      refine Machine.run_invariant (I := fun u ↦ u.Good code ∧ u.abs code = s.abs code) ?_
        ⟨hg, rfl⟩ hrun
      rintro u ⟨t, b⟩ u' ⟨hgu, hu⟩ hstep
      rcases hgu.step hstep with ⟨hgu', habs | hnet⟩
      · exact ⟨hgu', habs.trans hu⟩
      · have hnone := step_eq_none_iff.mpr (hstuck.blocked hs.control t b)
        rw [hu] at hnet
        cases hnone.symm.trans hnet
    exact hinv.2

/-- `main` waits for `ProcessThread`, which waits for a buffer of `AcqThread`, which waits for a
buffer of `CommThread`, which has ended. -/
theorem demo_stuck_single : ∃ s : Demo Nat 1, s.loc none = .main (.waiting .proc) ∧
    Stuck 1 (s.abs code) ∧
      ∀ acts s', (machine [0] 1).run s acts = some s' → s'.abs code = s.abs code := by
  have hsome : ((machine [0] 1).run singleStart
      (turns none 2 ++ turns (some .comm) 2 ++ turns none 1 ++ turns (some .acq) 14 ++
        turns (some .proc) 14 ++ turns none 1)).map
        (fun s ↦ (s.loc none, decide (∀ t, (s.step code (t, ())).isNone = true))) =
      some (.main (.waiting .proc), true) := by decide
  rcases Option.map_eq_some_iff.mp hsome with ⟨s, hs, hl⟩
  rcases Prod.mk.inj hl with ⟨hm, hn⟩
  have hstuck := demo_stuck (by decide) (by decide)
    ((Machine.Reachable.init init_singleStart).run hs)
  have hnone (t : Thread) : s.step code (t, ()) = none :=
    Option.isNone_iff_eq_none.mp (of_decide_eq_true hn t)
  exact ⟨s, hm, hstuck.1 hnone, hstuck.2 (hstuck.1 hnone)⟩

end CtrlrFx.Os.AcqDemo
