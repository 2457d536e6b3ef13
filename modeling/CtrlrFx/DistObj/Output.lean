import CtrlrFx.DistObj.Framing

/-!
# The response stream

What `run` writes when commands come one behind the other: for every command a packet whose
header gives the number of bytes that follow it, as long as that number is a `uint32_t`.
-/

namespace CtrlrFx.DistObj
open Base Data Io

/-! ### Responses -/

/-- An answer to a command. -/
structure Answer where
  byteOrder : UInt8
  msgId : UInt32
  reply : Int32
  body : List UInt8
  deriving DecidableEq, Repr

namespace Answer

variable (e : Endian)

/-- The packet of an answer. -/
def bytes (a : Answer) : List UInt8 :=
  PktHdr.encode e a.byteOrder msgTypeRsp (UInt32.ofNat (8 + a.body.length)) ++
    (NativeRep.bytes e a.msgId ++ NativeRep.bytes e a.reply) ++ a.body

/-- Takes the first packet off a stream: a header with the two magic bytes and the type of a
response, whose message size is eight more than the bytes of the body. -/
def takeFirst (bs : List UInt8) : Option (Answer × List UInt8) :=
  let n := (PktHdr.msgSize e (bs.take 8)).toNat
  if bs.take 2 = [magicC, magicX] ∧ PktHdr.msgType bs = msgTypeRsp ∧ 8 ≤ n ∧
      8 + n ≤ bs.length then
    some ({ byteOrder := bs.getD 2 0
            msgId := NativeRep.value e (Block.read bs 8 4)
            reply := NativeRep.value e (Block.read bs 12 4)
            body := Block.read bs 16 (n - 8) }, bs.drop (8 + n))
  else none

/-- Takes up to `k` packets off a stream, which are to be all of it. -/
def parseUpTo : Nat → List UInt8 → Option (List Answer)
  | _, [] => some []
  | 0, _ :: _ => none
  | k + 1, b :: bs =>
    match takeFirst e (b :: bs) with
    | none => none
    | some (a, rest) => (parseUpTo k rest).map (a :: ·)

/-- The packets of which a stream consists. -/
def parse (bs : List UInt8) : Option (List Answer) := parseUpTo e bs.length bs

variable {e : Endian}

theorem length_bytes (a : Answer) : (a.bytes e).length = 16 + a.body.length := by
  simp only [bytes, List.length_append, PktHdr.length_encode, NativeRep.length_bytes]
  rfl

/-- An answer whose size the header can tell is taken off as it was written. -/
theorem takeFirst_bytes {a : Answer} (h : a.body.length + 8 < 2 ^ 32) (rest : List UInt8) :
    takeFirst e (a.bytes e ++ rest) = some (a, rest) := by
  have hid : (NativeRep.bytes e a.msgId).length = 4 := NativeRep.length_bytes e a.msgId
  have hreply : (NativeRep.bytes e a.reply).length = 4 := NativeRep.length_bytes e a.reply
  have hhdr := PktHdr.length_encode e a.byteOrder msgTypeRsp (UInt32.ofNat (8 + a.body.length))
  obtain ⟨hdr, hh⟩ : ∃ hdr, PktHdr.encode e a.byteOrder msgTypeRsp
    (UInt32.ofNat (8 + a.body.length)) = hdr := ⟨_, rfl⟩
  have hbytes : a.bytes e ++ rest = hdr ++ (NativeRep.bytes e a.msgId ++
      (NativeRep.bytes e a.reply ++ (a.body ++ rest))) := by
    rw [bytes, hh]
    simp only [List.append_assoc]
  have hsize : (PktHdr.msgSize e ((a.bytes e ++ rest).take 8)).toNat = 8 + a.body.length := by
    rw [hbytes, List.take_left' (by rw [← hh, hhdr]), ← hh]
    have hv : PktHdr.msgSize e (PktHdr.encode e a.byteOrder msgTypeRsp
        (UInt32.ofNat (8 + a.body.length))) = UInt32.ofNat (8 + a.body.length) :=
      NativeRep.value_bytes e _
    rw [hv, UInt32.toNat_ofNat', Nat.mod_eq_of_lt (by omega)]
  have hlen : (a.bytes e ++ rest).length = 16 + a.body.length + rest.length := by
    rw [List.length_append, length_bytes]
  have h2 : (a.bytes e ++ rest).take 2 = [magicC, magicX] := by
    rw [hbytes, ← hh]
    rfl
  have h3 : PktHdr.msgType (a.bytes e ++ rest) = msgTypeRsp := by
    rw [hbytes, ← hh]
    rfl
  have hbo : (a.bytes e ++ rest).getD 2 0 = a.byteOrder := by
    rw [hbytes, ← hh]
    rfl
  rw [hh] at hhdr
  -- the fields behind the header, one after another
  have hread (pre xs post : List UInt8) (i n : Nat) (hi : pre.length = i) (hn : xs.length = n) :
      Block.read (pre ++ (xs ++ post)) i n = xs := by
    rw [Block.read, List.drop_left' hi, List.take_left' hn]
  have hf1 : Block.read (a.bytes e ++ rest) 8 4 = NativeRep.bytes e a.msgId := by
    rw [hbytes]
    exact hread _ _ _ _ _ hhdr hid
  have hf2 : Block.read (a.bytes e ++ rest) 12 4 = NativeRep.bytes e a.reply := by
    rw [hbytes, ← List.append_assoc]
    apply hread _ _ _ _ _ _ hreply
    rw [List.length_append, hhdr, hid]
  have hf3 : Block.read (a.bytes e ++ rest) 16 a.body.length = a.body := by
    rw [hbytes, ← List.append_assoc, ← List.append_assoc]
    apply hread _ _ _ _ _ _ rfl
    rw [List.length_append, List.length_append, hhdr, hid, hreply]
  have hdrop : (a.bytes e ++ rest).drop (16 + a.body.length) = rest :=
    List.drop_left' (length_bytes a)
  have h16 : 8 + (8 + a.body.length) = 16 + a.body.length := by omega
  unfold takeFirst
  dsimp only
  rw [hsize, if_pos ⟨h2, h3, by omega, by omega⟩, Nat.add_sub_cancel_left, hf1, hf2, hf3, hbo, h16,
    hdrop, NativeRep.value_bytes, NativeRep.value_bytes]

theorem parseUpTo_bytes {as : List Answer} (h : ∀ a ∈ as, a.body.length + 8 < 2 ^ 32) {k : Nat}
    (hk : as.length ≤ k) : parseUpTo e k (as.map (bytes e)).flatten = some as := by
  induction as generalizing k with
  | nil => cases k <;> rfl
  | cons a as ih =>
    cases k with
    | zero => exact absurd hk (Nat.not_succ_le_zero _)
    | succ k =>
      have htake := takeFirst_bytes (e := e) (h a List.mem_cons_self) (as.map (bytes e)).flatten
      have hrest : parseUpTo e k (as.map (bytes e)).flatten = some as := by
        apply ih _ (Nat.le_of_succ_le_succ hk)
        intro b hb
        exact h b (List.mem_cons_of_mem _ hb)
      rw [List.map_cons, List.flatten_cons]
      cases hbs : a.bytes e ++ (as.map (bytes e)).flatten with
      | nil =>
        have := congrArg List.length hbs
        rw [List.length_append, length_bytes, List.length_nil] at this
        omega
      | cons b bs =>
        rw [← hbs, parseUpTo.eq_def, hbs]
        dsimp only
        rw [← hbs, htake]
        dsimp only
        rw [hrest]
        rfl

theorem length_le_flatten (as : List Answer) : as.length ≤ (as.map (bytes e)).flatten.length := by
  induction as with
  | nil => exact Nat.le_refl _
  | cons a as ih =>
    rw [List.map_cons, List.flatten_cons, List.length_append, List.length_cons, length_bytes]
    omega

/-- Answers that were written one behind the other are parsed as they are. -/
theorem parse_bytes {as : List Answer} (h : ∀ a ∈ as, a.body.length + 8 < 2 ^ 32) :
    parse e (as.map (bytes e)).flatten = some as :=
  parseUpTo_bytes h (length_le_flatten as)

/-- No header can tell a larger size. -/
theorem body_of_takeFirst {bs rest : List UInt8} {a : Answer}
    (h : takeFirst e bs = some (a, rest)) : a.body.length + 8 < 2 ^ 32 := by
  have hlt : (PktHdr.msgSize e (bs.take 8)).toNat < 2 ^ 32 := UInt32.toNat_lt _
  unfold takeFirst at h
  dsimp only at h
  split at h
  · next hc =>
    cases h
    change (Block.read bs 16 _).length + 8 < 2 ^ 32
    rw [Block.read, List.length_take]
    omega
  · cases h

theorem body_of_parseUpTo {k : Nat} {bs : List UInt8} {as : List Answer}
    (h : parseUpTo e k bs = some as) : ∀ a ∈ as, a.body.length + 8 < 2 ^ 32 := by
  induction k generalizing bs as with
  | zero =>
    cases bs with
    | nil =>
      cases h
      intro a ha
      cases ha
    | cons b bs => cases h
  | succ k ih =>
    cases bs with
    | nil =>
      cases h
      intro a ha
      cases ha
    | cons b bs =>
      rw [parseUpTo] at h
      split at h
      · cases h
      · next a rest htake =>
        rcases Option.map_eq_some_iff.mp h with ⟨as', has, rfl⟩
        intro x hx
        rcases List.mem_cons.mp hx with rfl | hx
        · exact body_of_takeFirst htake
        · exact ih has x hx

end Answer

/-! ### The answers of a run -/

/-- The object writes its answer only through the put operations of the encoder. -/
def IDistObj.PutsOnly {σ : Type} (e : Endian) (o : IDistObj σ) : Prop :=
  ∀ op param rsp s, BufCodec.Puts e rsp (o.invoke op param rsp s).rsp

/-- A whole command that holds a command header and fits the command buffer. -/
structure Packet.IsCommand (cap : Nat) (p : Packet) : Prop where
  msgType : p.msgType = msgTypeCmd
  hdr : 12 ≤ p.payload.length
  fits : p.payload.length ≤ cap

namespace Run

variable {σ : Type} (e : Endian)

/-- The answers that are due to commands served in these passes: the command's byte order and
id, the result of the dispatch, and what the object put. -/
def answers (s : Run σ) : List (Packet × Entry) → List Answer
  | [] => []
  | (p, a) :: xs =>
    { byteOrder := p.byteOrder
      msgId := (CmdHdr.decode e p.payload).msgId
      reply := ((s.atPacket a).reply e).ret
      body := ((s.atPacket a).reply e).rsp.buf.written } :: answers (s.pass e a) xs

/-- State in which `run` serves whole commands: it goes on, everything that arrives is there,
the port takes what is written, and every object answers through puts. -/
structure Serving (s : Run σ) : Prop extends s.Active where
  stops : s.srvr.port.stops = []
  lossless : s.srvr.port.Lossless
  putsOnly : ∀ key o, s.srvr.objReg.getObj key = some o → o.PutsOnly e

variable {e}

/-- What an object has put lies below the end of the response buffer. -/
theorem Serving.writable_dispatch {s : Run σ} (hs : s.Serving e) (key op : UInt32)
    (param : BufCodec) :
    (s.srvr.objReg.dispatch key op param { buf := s.srvr.rspBuf.clear, good := true }
      s.objs).rsp.buf.Writable := by
  have hclear := Buffer.writable_clear s.srvr.rspBuf
  unfold DistObjRegistry.dispatch
  split
  · exact hclear
  · next o ho => exact (hs.putsOnly key o ho _ _ _ _).writable hclear

/-- One pass over a command writes its answer. -/
theorem pass_serving {s : Run σ} {p : Packet} {a : Entry} {rest : List UInt8}
    {xs : List (Packet × Entry)} (hs : s.Serving e) (ha : a.quit = false)
    (hp : s.srvr.port.pending = p.bytes e ++ rest) (hc : p.IsCommand s.srvr.cmdBuf.capacity)
    (hlt : ∀ x ∈ s.answers e ((p, a) :: xs), x.body.length + 8 < 2 ^ 32) :
    (s.pass e a).Serving e ∧ (s.pass e a).srvr.port.pending = rest ∧
      (s.pass e a).srvr.cmdBuf.capacity = s.srvr.cmdBuf.capacity ∧
      (s.pass e a).srvr.port.sent ++
          (((s.pass e a).answers e xs).map (Answer.bytes e)).flatten =
        s.srvr.port.sent ++ ((s.answers e ((p, a) :: xs)).map (Answer.bytes e)).flatten := by
  obtain ⟨b, t, -, -, -, hreply, ht, hpass⟩ := pass_command e hs.toActive hs.stops ha hp
    hc.msgType hc.hdr hc.fits
  have hfit := hlt _ List.mem_cons_self
  have hw := hs.writable_dispatch (CmdHdr.decode e p.payload).tgtObj
    (CmdHdr.decode e p.payload).operation { buf := b, good := true }
  rw [← hreply] at hw
  have hans : s.answers e ((p, a) :: xs) =
      { byteOrder := p.byteOrder
        msgId := (CmdHdr.decode e p.payload).msgId
        reply := ((s.atPacket a).reply e).ret
        body := ((s.atPacket a).reply e).rsp.buf.written } :: (s.pass e a).answers e xs := rfl
  obtain ⟨r, hr⟩ : ∃ r, (s.atPacket a).reply e = r := ⟨_, rfl⟩
  rw [hr] at hw ht hpass hans
  have hfit : r.rsp.buf.pos + 8 < 2 ^ 32 := by
    rw [← hw.valid.length_written, ← hr]
    exact hfit
  have hwr : t.srvr.port.Lossless := by
    rw [Port.Lossless, ht.port.wr]
    exact hs.lossless
  obtain ⟨hwrote, hlossless⟩ := respond_wrote e r.ret hwr (by rw [ht.rspBuf]; exact hw.valid)
    (by rwa [ht.rspBuf])
  rcases respond_spec e t r.ret with ⟨-, -, hrun, hquit, hcmdBuf, hrd, -⟩
  have hobjReg : (t.respond e r.ret).srvr.objReg = t.srvr.objReg := rfl
  rw [← hpass] at hwrote hlossless hrun hquit hcmdBuf hrd hobjReg
  have hstops : (s.pass e a).srvr.port.stops = [] :=
    (congrArg Port.tail hrd).trans (ht.port.stops hs.stops)
  refine ⟨⟨⟨?_, ?_, Port.ended_of_stops hstops⟩, hstops, hlossless, ?_⟩, ?_, ?_, ?_⟩
  · rw [hrun, ht.running, hs.running]
  · rw [hquit, ht.quit]
  · rw [hobjReg, ht.objReg]
    exact hs.putsOnly
  · have hpend : (s.pass e a).srvr.port.pending = t.srvr.port.pending := congrArg Port.lead hrd
    rw [hpend, ht.port.pending, hp, List.drop_left]
  · rw [hcmdBuf, ht.cmd]
  · have hpkt : t.pktHdr.bytes = PktHdr.encode e p.byteOrder p.msgType
        (UInt32.ofNat p.payload.length) := ht.pktHdr
    rw [hans, List.map_cons, List.flatten_cons, ← List.append_assoc, hwrote.sent, ht.port.sent,
      PktHdr.store_rsp hpkt, ht.cmdHdr, ht.rspBuf]
    simp only [Answer.bytes, hw.valid.length_written]

/-- At the end of the stream `run` returns without writing. -/
theorem sent_passes_nil {s : Run σ} (hs : s.Serving e) (hp : s.srvr.port.pending = [])
    {as : List Entry} (ha : ∀ a ∈ as, a.quit = false) :
    (s.passes e as).srvr.port.sent = s.srvr.port.sent := by
  cases as with
  | nil => rfl
  | cons a as =>
    have hfound : found a.magic.snd s.srvr.port.pending = none := by
      rw [hp]
      rfl
    rcases pass_none e hs.toActive (ha a List.mem_cons_self) hfound with ⟨hr, -, -, hsent⟩
    rw [passes, passes_of_stopped e hr, hsent]

/-- The passes over commands, and those behind them, write the answers. -/
theorem sent_passes {s : Run σ} {xs : List (Packet × Entry)} {as : List Entry}
    (hs : s.Serving e)
    (hp : s.srvr.port.pending = (xs.map fun x ↦ x.1.bytes e).flatten)
    (hx : ∀ x ∈ xs, x.1.IsCommand s.srvr.cmdBuf.capacity ∧ x.2.quit = false)
    (ha : ∀ a ∈ as, a.quit = false)
    (hlt : ∀ x ∈ s.answers e xs, x.body.length + 8 < 2 ^ 32) :
    (s.passes e (xs.map Prod.snd ++ as)).srvr.port.sent =
      s.srvr.port.sent ++ ((s.answers e xs).map (Answer.bytes e)).flatten := by
  induction xs generalizing s with
  | nil =>
    rw [List.map_nil, List.nil_append, sent_passes_nil hs hp ha]
    exact (List.append_nil _).symm
  | cons x xs ih =>
    rcases x with ⟨p, a⟩
    rcases hx _ List.mem_cons_self with ⟨hc, hq⟩
    rw [List.map_cons, List.flatten_cons] at hp
    rcases pass_serving hs hq hp hc hlt with ⟨hs', hp', hcap, hsent⟩
    rw [← hsent]
    apply ih hs' hp'
    · intro x hm
      rw [hcap]
      exact hx x (List.mem_cons_of_mem _ hm)
    · intro x hm
      exact hlt x (List.mem_cons_of_mem _ hm)

/-- What `run` writes for a stream of commands parses as the answers to them, one packet for
each, just when the size of each answer is a `uint32_t`. -/
theorem run_answers_iff (d : DistObjSrvr σ) (pktHdr : PktHdr) (cmdHdr : CmdHdr) (objs : σ)
    (xs : List (Packet × Entry)) (as : List Entry) (hq : d.quit = false)
    (hstop : d.port.stops = []) (hl : d.port.Lossless)
    (hp : d.port.pending = (xs.map fun x ↦ x.1.bytes e).flatten)
    (hx : ∀ x ∈ xs, x.1.IsCommand d.cmdBuf.capacity ∧ x.2.quit = false)
    (ha : ∀ a ∈ as, a.quit = false)
    (hobj : ∀ key o, d.objReg.getObj key = some o → o.PutsOnly e) :
    Answer.parse e (((start d pktHdr cmdHdr objs).passes e
        (xs.map Prod.snd ++ as)).srvr.port.sent.drop d.port.sent.length) =
      some ((start d pktHdr cmdHdr objs).answers e xs) ↔
    ∀ x ∈ (start d pktHdr cmdHdr objs).answers e xs, x.body.length + 8 < 2 ^ 32 := by
  have hs : (start d pktHdr cmdHdr objs).Serving e :=
    ⟨⟨rfl, hq, Port.ended_of_stops hstop⟩, hstop, hl, hobj⟩
  constructor
  · intro h
    exact Answer.body_of_parseUpTo h
  · intro hlt
    have hd : (start d pktHdr cmdHdr objs).srvr.port.sent = d.port.sent := rfl
    rw [sent_passes hs hp hx ha hlt, hd, List.drop_left]
    exact Answer.parse_bytes hlt

/-- A command without parameters to the object with key 7. -/
def plainCommand (id op : UInt8) : Packet where
  byteOrder := 0
  msgType := msgTypeCmd
  payload := [id, 0, 0, 0, 7, 0, 0, 0, op, 0, 0, 0]
  length_lt := by
    change 12 < 2 ^ 32
    decide

/-- A server with this object, to which a stream comes, and a response buffer of `n` bytes. -/
def soleServer (o : IDistObj Unit) (bs : List UInt8) (n : Nat) : DistObjSrvr Unit :=
  let d : DistObjSrvr Unit := .create (.deliver [bs]) (List.replicate 2 { key := 0, obj := none })
    (List.replicate 16 0) (List.replicate n 0)
  (d.registerObj 7 (some o)).2

theorem getObj_soleServer {o p : IDistObj Unit} {bs : List UInt8} {n : Nat} {key : UInt32}
    (h : (soleServer o bs n).objReg.getObj key = some p) : p = o := by
  have hget : (soleServer o bs n).objReg.getObj key = if 7 = key then some o else none := rfl
  rw [hget] at h
  split at h
  · cases h
    rfl
  · cases h

/-- An object that puts the number of the operation. -/
def echo : IDistObj Unit where
  invoke op param rsp s := { ret := 0, param, rsp := (rsp.put .little op).2, objs := s }
  capacity_param _ _ _ _ := rfl
  capacity_rsp op _ rsp _ := BufCodec.capacity_put .little rsp op

theorem putsOnly_echo : echo.PutsOnly .little := by
  intro op param rsp s
  exact .put _ _ (NativeRep.length_bytes _ op) .refl

/-- The commands that come when the object is called twice. -/
def twoCommands : List (Packet × Entry) :=
  [(plainCommand 1 5, default), (plainCommand 2 6, default)]

/-- The server to which they come. -/
def twoServer : DistObjSrvr Unit :=
  soleServer echo (twoCommands.map fun x ↦ x.1.bytes .little).flatten 4

/-- Two commands are answered. -/
theorem run_answers_iff_two :
    Answer.parse .little (((start twoServer default default ()).passes .little
        (twoCommands.map Prod.snd ++ [default])).srvr.port.sent.drop twoServer.port.sent.length) =
      some ((start twoServer default default ()).answers .little twoCommands) := by
  apply (run_answers_iff _ _ _ _ _ _ rfl _ _ _ _ _ _).mpr
  · decide
  · exact Port.stops_deliver _
  · intro r hr
    cases hr
  · exact (Port.pending_deliver _).trans List.flatten_singleton
  · intro x hx
    simp only [twoCommands, List.mem_cons, List.not_mem_nil, or_false] at hx
    rcases hx with rfl | rfl
    · exact ⟨⟨rfl, by decide, by decide⟩, rfl⟩
    · exact ⟨⟨rfl, by decide, by decide⟩, rfl⟩
  · intro a ha
    simp only [List.mem_cons, List.not_mem_nil, or_false] at ha
    rw [ha]
    rfl
  · intro key o ho
    rw [getObj_soleServer ho]
    exact putsOnly_echo

/-- An object that puts an array. -/
def flood (arr : List UInt8) : IDistObj Unit where
  invoke _ param rsp s := { ret := 0, param, rsp := (rsp.putArr .little arr).2, objs := s }
  capacity_param _ _ _ _ := rfl
  capacity_rsp _ _ rsp _ := BufCodec.capacity_putArr .little rsp arr

theorem putsOnly_flood (arr : List UInt8) : (flood arr).PutsOnly .little := by
  intro op param rsp s
  exact .putArr arr .refl

theorem rsp_flood (arr : List UInt8) (op : UInt32) (param rsp : BufCodec) (s : Unit) :
    ((flood arr).invoke op param rsp s).rsp = (rsp.putArr .little arr).2 := rfl

/-- An array that just fits fills the buffer, behind its length. -/
theorem length_putArr_clear {b : Buffer UInt8} {arr : List UInt8}
    (h : arr.length + 2 = b.capacity) :
    (BufCodec.putArr .little { buf := b.clear, good := true } arr).2.buf.written.length =
      arr.length + 2 := by
  have hz : b.clear.pos = 0 := rfl
  have hs : NativeRep.size UInt16 = 2 := rfl
  have hlim : b.clear.lim = b.capacity := rfl
  obtain ⟨b', hput, hv, hpos, hl, hw⟩ := BufCodec.put_append (e := .little) (.inr (.inl hs))
    (Buffer.valid_clear b) (by rw [hz]; exact Nat.dvd_zero _) (by omega)
    (UInt16.ofNat arr.length)
  have halign : b'.align 1 = b' := by
    rw [Buffer.align_eq b' (Nat.one_dvd _) (.inl (Nat.one_dvd _)), if_pos (Nat.one_dvd _)]
  have hputArr : (BufCodec.putArr .little { buf := b.clear, good := true } arr).2.buf =
      (b'.putBlock arr).2 := by
    unfold BufCodec.putArr
    rw [if_pos rfl, hput]
    dsimp only
    rw [if_neg (not_not.mpr rfl), halign]
  have hcap := Buffer.writable_clear b
  have hwr : b'.Writable := by
    have := BufCodec.writable_putRaw (c := { buf := b.clear, good := true }) hcap 2
      (NativeRep.bytes .little (UInt16.ofNat arr.length))
    change (BufCodec.put .little { buf := b.clear, good := true }
      (UInt16.ofNat arr.length)).2.buf.Writable at this
    rwa [hput] at this
  rw [hputArr, (hwr.putBlock arr).valid.length_written, Buffer.putBlock_of_le (by omega)]
  change b'.pos + arr.length = arr.length + 2
  omega

/-- The answer to a command to which the object puts an array that just fits. -/
theorem answers_flood {arr : List UInt8} {n : Nat} (h : arr.length + 2 = n) :
    ∃ a, (start (soleServer (flood arr) ((plainCommand 1 5).bytes .little) n) default default
        ()).answers .little [(plainCommand 1 5, default)] = [a] ∧ a.body.length = n := by
  obtain ⟨d, hd⟩ : ∃ d, soleServer (flood arr) ((plainCommand 1 5).bytes .little) n = d := ⟨_, rfl⟩
  have hobj : d.objReg.getObj 7 = some (flood arr) := by
    rw [← hd]
    rfl
  have hcap : d.rspBuf.capacity = n := by
    rw [← hd]
    exact List.length_replicate
  have hcmd : d.cmdBuf.capacity = 16 := by
    rw [← hd]
    rfl
  have hpend : d.port.pending = (plainCommand 1 5).bytes .little ++ [] := by
    rw [← hd, List.append_nil]
    exact (Port.pending_deliver _).trans List.flatten_singleton
  have hstop : d.port.stops = [] := by
    rw [← hd]
    exact Port.stops_deliver _
  have hq : d.quit = false := by
    rw [← hd]
    rfl
  obtain ⟨b, t, -, -, -, hreply, -, -⟩ := pass_command (p := plainCommand 1 5) .little
    (s := start d default default ()) (a := default) ⟨rfl, hq, Port.ended_of_stops hstop⟩ hstop
    rfl hpend rfl (by decide) (by change 12 ≤ d.cmdBuf.capacity; omega)
  refine ⟨_, rfl, ?_⟩
  rw [hd]
  change (((start d default default ()).atPacket default).reply .little).rsp.buf.written.length = n
  have hkey : (CmdHdr.decode .little (plainCommand 1 5).payload).tgtObj = 7 := by decide
  have hreg : (start d default default ()).srvr.objReg = d.objReg := rfl
  have hrsp : (start d default default ()).srvr.rspBuf = d.rspBuf := rfl
  rw [hreply, hkey, hreg, hrsp, DistObjRegistry.dispatch, hobj]
  dsimp only
  rw [rsp_flood, length_putArr_clear (by omega), h]

/-- A body of `2 ^ 32 - 8` bytes: the header gives the size 0, and the body is not written. -/
theorem run_answers_not_parsed :
    (flood (List.replicate (2 ^ 32 - 10) 0)).PutsOnly .little ∧
    Answer.parse .little (((start (soleServer (flood (List.replicate (2 ^ 32 - 10) 0))
        ((plainCommand 1 5).bytes .little) (2 ^ 32 - 8)) default default ()).passes .little
          [default, default]).srvr.port.sent) ≠
      some ((start (soleServer (flood (List.replicate (2 ^ 32 - 10) 0))
        ((plainCommand 1 5).bytes .little) (2 ^ 32 - 8)) default default ()).answers .little
          [(plainCommand 1 5, default)]) := by
  refine ⟨putsOnly_flood _, ?_⟩
  intro h
  have hroom : (List.replicate (2 ^ 32 - 10) (0 : UInt8)).length + 2 = 2 ^ 32 - 8 := by
    rw [List.length_replicate]
    decide
  rcases answers_flood hroom with ⟨a, ha, hlen⟩
  rw [ha] at h
  have hlt := Answer.body_of_parseUpTo h a List.mem_cons_self
  rw [hlen] at hlt
  exact absurd hlt (by decide)

end Run
end CtrlrFx.DistObj
