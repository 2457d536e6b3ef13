import CtrlrFx.DistObj.Pass

/-!
# Dispatch integrity

Which streams of bytes justify the dispatches that `run` makes of them. The loop checks
neither the results of its reads and gets nor the message size against its buffer, so that a
dispatch may be made of what an earlier packet left behind; on streams that give it no reason
to, every dispatch is made of a packet of its own.
-/

namespace CtrlrFx.DistObj
open Base Data Io

/-- A header and a payload that make a command packet a buffer of `cap` bytes can hold. -/
structure IsCommand (e : Endian) (cap : Nat) (hdr payload : List UInt8) : Prop where
  length_hdr : hdr.length = 8
  magic : hdr.take 2 = [magicC, magicX]
  msgType : PktHdr.msgType hdr = msgTypeCmd
  msgSize : (PktHdr.msgSize e hdr).toNat = payload.length
  le_length : 12 ≤ payload.length
  length_le : payload.length ≤ cap

/-- Every dispatch is made of a whole command packet of the stream, in order, with the header
and the parameters that are in it. -/
inductive Justified (e : Endian) (cap : Nat) : List UInt8 → List Dispatch → Prop where
  | done (s : List UInt8) : Justified e cap s []
  | skip (b : UInt8) {s : List UInt8} {ds : List Dispatch} :
      Justified e cap s ds → Justified e cap (b :: s) ds
  | command {hdr payload s : List UInt8} {ds : List Dispatch} :
      IsCommand e cap hdr payload → Justified e cap s ds →
      Justified e cap (hdr ++ payload ++ s) (Dispatch.ofPayload e payload :: ds)

namespace Justified

variable {e : Endian} {cap : Nat} {s : List UInt8} {ds : List Dispatch}

theorem of_drop {n : Nat} (h : Justified e cap (s.drop n) ds) : Justified e cap s ds := by
  induction n generalizing s with
  | zero => exact h
  | succ n ih =>
    cases s with
    | nil => exact h
    | cons b s => exact .skip b (ih h)

/-- A command that is whole at a pair of the stream justifies its dispatch. -/
theorem of_command {h : PktHdr} {i n : Nat} (hp : PairAt s i) (hb : h.bytes = Block.read s i 8)
    (ht : PktHdr.msgType h.bytes = msgTypeCmd) (hn : (PktHdr.msgSize e h.bytes).toNat = n)
    (h12 : 12 ≤ n) (hcap : n ≤ cap) (hall : i + 8 + n ≤ s.length)
    (hds : Justified e cap (s.drop (i + 8 + n)) ds) :
    Justified e cap s (Dispatch.ofPayload e (Block.read s (i + 8) n) :: ds) := by
  have hpay : (Block.read s (i + 8) n).length = n := Block.length_read _ _ _ hall
  have hcommand : IsCommand e cap h.bytes (Block.read s (i + 8) n) := by
    refine ⟨h.size_eq, ?_, ht, hn.trans hpay.symm, by omega, by omega⟩
    rw [hb, Block.read, hp.drop]
    rfl
  have hsplit : s.drop i = h.bytes ++ Block.read s (i + 8) n ++ s.drop (i + 8 + n) := by
    rw [hb, List.append_assoc, ← Block.drop_eq_read, ← Block.drop_eq_read]
  apply of_drop (n := i)
  rw [hsplit]
  exact .command hcommand hds

/-- Every dispatch takes twenty bytes of its own. -/
theorem length_le (h : Justified e cap s ds) : 20 * ds.length ≤ s.length := by
  induction h with
  | done s => exact Nat.zero_le _
  | skip b _ ih =>
    rw [List.length_cons]
    omega
  | command hc _ ih =>
    have h8 := hc.length_hdr
    have h12 := hc.le_length
    simp only [List.length_append, List.length_cons]
    omega

end Justified

/-- What a stream gives a pass no reason to go wrong with: it is in step and does not end in a
ghost, the header behind its first pair is whole, and a command has a command header, fits the
buffer and is whole. -/
structure Orderly (e : Endian) (cap : Nat) (snd : UInt8) (s : List UInt8) : Prop where
  inStep : InStep s
  ghost : (∀ i, ¬PairAt s i) → ¬Ghost snd s
  whole : ∀ i, FirstPair s i → i + 8 ≤ s.length
  command : ∀ i, FirstPair s i → PktHdr.msgType (Block.read s i 8) = msgTypeCmd →
    12 ≤ (PktHdr.msgSize e (Block.read s i 8)).toNat ∧
      (PktHdr.msgSize e (Block.read s i 8)).toNat ≤ cap ∧
      i + 8 + (PktHdr.msgSize e (Block.read s i 8)).toNat ≤ s.length

namespace Run

variable {σ : Type} (e : Endian)

/-- Every pass that waits for a header finds an orderly stream. -/
def WellFed (s : Run σ) : List Entry → Prop
  | [] => True
  | a :: as =>
    (s.running = true → s.srvr.quit = false → a.quit = false →
      Orderly e s.srvr.cmdBuf.capacity a.magic.snd s.srvr.port.pending) ∧
    WellFed (s.pass e a) as

/-- A pass that is told to quit dispatches nothing. -/
theorem pass_of_quit {s : Run σ} {a : Entry}
    (h : s.running = false ∨ s.srvr.quit = true ∨ a.quit = true) :
    (s.pass e a).running = false ∧ (s.pass e a).calls = s.calls := by
  by_cases hr : s.running = false
  · rw [pass_of_stopped e hr]
    exact ⟨hr, rfl⟩
  · rw [Bool.not_eq_false] at hr
    by_cases hq : s.srvr.quit = true
    · simp only [pass, hr, hq, Bool.not_true, Bool.false_eq_true, if_false, if_true, and_self]
    · have ha : a.quit = true := (h.resolve_left (by simp [hr])).resolve_left hq
      simp only [pass, hr, hq, ha, Bool.not_true, Bool.false_eq_true, if_false, true_or, if_true,
        and_self]

/-- Behind a header a command that is whole is dispatched, and its bytes are consumed. -/
theorem serve_whole {s : Run σ} {h : PktHdr} {q : Port} {i n : Nat} (he : s.srvr.port.Ended)
    (hq : Port.Past s.srvr.port (i + 8) q) (ht : PktHdr.msgType h.bytes = msgTypeCmd)
    (hn : (PktHdr.msgSize e h.bytes).toNat = n) (h12 : 12 ≤ n) (hcap : n ≤ s.srvr.cmdBuf.capacity)
    (hall : i + 8 + n ≤ s.srvr.port.pending.length) :
    ((s.headed h q).serve e).calls =
        s.calls ++ [Dispatch.ofPayload e (Block.read s.srvr.port.pending (i + 8) n)] ∧
      ((s.headed h q).serve e).srvr.port.pending = s.srvr.port.pending.drop (i + 8 + n) := by
  have hpay : (Block.read s.srvr.port.pending (i + 8) n).length = n :=
    Block.length_read _ _ _ hall
  have hsize : (PktHdr.msgSize e (s.headed h q).pktHdr.bytes).toNat = n := hn
  have hpend : (s.headed h q).srvr.port.pending = q.pending := rfl
  constructor
  · apply calls_serve e (hq.ended he) ht ?_ (hpay.trans hn.symm) (by omega)
    · rwa [hpay]
    · rw [hsize, hpend, hq.pending]
      rfl
  · have hserve := serve_spec e (s := s.headed h q) (hq.ended he)
    have hlen : (s.headed h q).srvr.port.pending.length =
        s.srvr.port.pending.length - (i + 8) := by
      rw [hpend, hq.pending, List.length_drop]
    have hcap' : (s.headed h q).srvr.cmdBuf.capacity = s.srvr.cmdBuf.capacity := rfl
    rw [(hq.toConsumed.trans hserve.port).pending, hlen, hcap', hsize]
    congr 1
    omega

/-- One pass over an orderly stream dispatches at most one packet, which it consumes. -/
theorem pass_justified {s : Run σ} {a : Entry} (hs : s.Active) (ha : a.quit = false)
    (ho : Orderly e s.srvr.cmdBuf.capacity a.magic.snd s.srvr.port.pending) :
    ((s.pass e a).running = false ∧ (s.pass e a).calls = s.calls) ∨
      (s.pass e a).Active ∧
        (s.pass e a).srvr.cmdBuf.capacity = s.srvr.cmdBuf.capacity ∧
        ∃ ds, (s.pass e a).calls = s.calls ++ ds ∧
          ∀ es, Justified e s.srvr.cmdBuf.capacity (s.pass e a).srvr.port.pending es →
            Justified e s.srvr.cmdBuf.capacity s.srvr.port.pending (ds ++ es) := by
  rcases firstPair_or s.srvr.port.pending with ⟨i, hi⟩ | hn
  · right
    have hle := ho.whole i hi
    rcases pass_some e hs ha (found_firstPair a.magic.snd ho.inStep hi) (.inl (by omega)) with
      ⟨h, q, -, hpass, hh, hpast⟩
    have hq : Port.Past s.srvr.port (i + 8) q := by
      rwa [Nat.min_eq_left (by omega)] at hpast
    have hbytes : h.bytes = Block.read s.srvr.port.pending i 8 := by
      rw [hh, hi.1.bytes_store hle]
    have hserve := serve_spec e (s := s.headed h q) (hq.ended hs.ended)
    have hport := hq.toConsumed.trans hserve.port
    rw [← hpass] at hserve hport
    refine ⟨⟨hserve.running.trans hs.running, hserve.quit, hport.ended hs.ended⟩,
      hserve.capacity, ?_⟩
    by_cases ht : PktHdr.msgType h.bytes = msgTypeCmd
    · rcases ho.command i hi (hbytes ▸ ht) with ⟨h12, hcap, hall⟩
      rw [← hbytes] at h12 hcap hall
      rcases serve_whole e hs.ended hq ht rfl h12 hcap hall with ⟨hcalls, hrest⟩
      rw [← hpass] at hcalls hrest
      refine ⟨_, hcalls, ?_⟩
      intro es hes
      rw [hrest] at hes
      exact .of_command hi.1 hbytes ht rfl h12 hcap hall hes
    · refine ⟨[], ?_, ?_⟩
      · have hcalls : (s.headed h q).calls = s.calls := rfl
        rw [hpass, calls_serve_of_ne e ht, hcalls, List.append_nil]
      · intro es hes
        rw [hport.pending] at hes
        exact hes.of_drop
  · left
    rcases pass_none e hs ha (found_none ho.inStep hn (ho.ghost hn)) with ⟨hr, -, hc, -⟩
    exact ⟨hr, hc⟩

/-- A whole run over streams that are orderly for every pass. -/
theorem passes_justified {s : Run σ} {as : List Entry} (he : s.srvr.port.Ended)
    (hw : s.WellFed e as) :
    ∃ ds, (s.passes e as).calls = s.calls ++ ds ∧
      Justified e s.srvr.cmdBuf.capacity s.srvr.port.pending ds := by
  induction as generalizing s with
  | nil => exact ⟨[], (List.append_nil _).symm, .done _⟩
  | cons a as ih =>
    have hdone (h : (s.pass e a).running = false ∧ (s.pass e a).calls = s.calls) :
        ∃ ds, (s.passes e (a :: as)).calls = s.calls ++ ds ∧
          Justified e s.srvr.cmdBuf.capacity s.srvr.port.pending ds := by
      refine ⟨[], ?_, .done _⟩
      rw [passes, passes_of_stopped e h.1, h.2, List.append_nil]
    by_cases hq : s.running = false ∨ s.srvr.quit = true ∨ a.quit = true
    · exact hdone (pass_of_quit e hq)
    · simp only [not_or, Bool.not_eq_false, Bool.not_eq_true] at hq
      obtain ⟨hr, hsq, haq⟩ := hq
      rcases pass_justified e ⟨hr, hsq, he⟩ haq (hw.1 hr hsq haq) with h | ⟨hs', hcap, ds, hc, hj⟩
      · exact hdone h
      · obtain ⟨es, hces, hjes⟩ := ih hs'.ended hw.2
        rw [hcap] at hjes
        exact ⟨ds ++ es, by rw [passes, hces, hc, List.append_assoc], hj es hjes⟩

/-- From beginning to end, as long as every pass that waits for a header finds an orderly
stream, every dispatch of `run` is made of a whole command packet it received. -/
theorem run_justified (d : DistObjSrvr σ) (h : PktHdr) (c : CmdHdr) (objs : σ) (as : List Entry)
    (he : d.port.Ended) (hw : (start d h c objs).WellFed e as) :
    Justified e d.cmdBuf.capacity d.port.pending ((start d h c objs).passes e as).calls := by
  obtain ⟨ds, hc, hj⟩ := passes_justified e (s := start d h c objs) he hw
  rwa [hc]

/-- An object that counts its invocations. -/
def counter : IDistObj Nat where
  invoke _ param rsp n := { ret := 0, param, rsp, objs := n + 1 }
  capacity_param _ _ _ _ := rfl
  capacity_rsp _ _ _ _ := rfl

/-- A server with this object under the key 5 and buffers of sixteen bytes. -/
def countSrvr (chunks : List (List UInt8)) : DistObjSrvr Nat :=
  ((DistObjSrvr.create (.deliver chunks) (List.replicate 4 { key := 0, obj := none })
    (List.replicate 16 0) (List.replicate 16 0)).registerObj 5 (some counter)).2

/-- A stream that begins with a header is in step with it. -/
theorem orderly_of_pairAt_zero {cap : Nat} {snd : UInt8} {s : List UInt8} (h0 : PairAt s 0)
    (h8 : 8 ≤ s.length) (hc : PktHdr.msgType (Block.read s 0 8) = msgTypeCmd →
      12 ≤ (PktHdr.msgSize e (Block.read s 0 8)).toNat ∧
        (PktHdr.msgSize e (Block.read s 0 8)).toNat ≤ cap ∧
        8 + (PktHdr.msgSize e (Block.read s 0 8)).toNat ≤ s.length) :
    Orderly e cap snd s := by
  have hz {i : Nat} (hi : FirstPair s i) : i = 0 := by
    by_contra hne
    exact hi.2 0 (Nat.pos_of_ne_zero hne) h0
  refine ⟨inStep_of_clean (i := 0) (clean_of_length_le (by simp)) (.inl h0),
    fun hn ↦ absurd h0 (hn 0), fun i hi ↦ ?_, fun i hi ↦ ?_⟩
  · rw [hz hi]
    omega
  · rw [hz hi, Nat.zero_add]
    exact hc

theorem orderly_nil (cap : Nat) (snd : UInt8) : Orderly e cap snd [] :=
  ⟨fun _ _ _ _ hm _ ↦ (nomatch hm), fun _ hg ↦ Nat.zero_ne_one hg.1,
    fun _ hi ↦ (nomatch hi.1.1), fun _ hi ↦ (nomatch hi.1.1)⟩

/-- A command of twelve bytes that arrives in three chunks. -/
theorem run_justified_one :
    ((start (countSrvr [[67, 88, 0, 0, 12, 0, 0, 0, 9], [0, 0, 0, 5, 0], [0, 0, 1, 0, 0, 0]])
        default default 0).passes .little [default, default]).calls =
      [{ hdr := { msgId := 9, tgtObj := 5, operation := 1 }, param := [] }] ∧
    Justified .little 16 [67, 88, 0, 0, 12, 0, 0, 0, 9, 0, 0, 0, 5, 0, 0, 0, 1, 0, 0, 0]
      ((start (countSrvr [[67, 88, 0, 0, 12, 0, 0, 0, 9], [0, 0, 0, 5, 0], [0, 0, 1, 0, 0, 0]])
        default default 0).passes .little [default, default]).calls := by
  have hw : (start (countSrvr [[67, 88, 0, 0, 12, 0, 0, 0, 9], [0, 0, 0, 5, 0],
      [0, 0, 1, 0, 0, 0]]) default default 0).WellFed .little [default, default] := by
    have hnil : ((start (countSrvr [[67, 88, 0, 0, 12, 0, 0, 0, 9], [0, 0, 0, 5, 0],
        [0, 0, 1, 0, 0, 0]]) default default 0).pass .little default).srvr.port.pending = [] := by
      decide
    refine ⟨fun _ _ _ ↦ orderly_of_pairAt_zero .little (by decide) (by decide) (by decide),
      fun _ _ _ ↦ ?_, trivial⟩
    rw [hnil]
    exact orderly_nil .little _ _
  exact ⟨by decide, run_justified .little _ default default 0 _ (Port.ended_of_stops rfl) hw⟩

/-- A header without payload behind a command: the object is invoked again, with the header
that the command left behind. -/
theorem run_not_justified :
    ((start (countSrvr [[67, 88, 0, 0, 12, 0, 0, 0, 9, 0, 0, 0, 5, 0, 0, 0, 1, 0, 0, 0],
        [67, 88, 0, 0, 0, 0, 0, 0]]) default default 0).passes .little
        (List.replicate 3 default)).objs = 2 ∧
    ¬Justified .little 16
      [67, 88, 0, 0, 12, 0, 0, 0, 9, 0, 0, 0, 5, 0, 0, 0, 1, 0, 0, 0, 67, 88, 0, 0, 0, 0, 0, 0]
      ((start (countSrvr [[67, 88, 0, 0, 12, 0, 0, 0, 9, 0, 0, 0, 5, 0, 0, 0, 1, 0, 0, 0],
        [67, 88, 0, 0, 0, 0, 0, 0]]) default default 0).passes .little
        (List.replicate 3 default)).calls := by
  refine ⟨by decide, fun hj ↦ ?_⟩
  have hlen := hj.length_le
  revert hlen
  decide

end Run
end CtrlrFx.DistObj
