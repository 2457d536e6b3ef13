import CtrlrFx.Base.Handles
import CtrlrFx.Io.InDevBinStream

/-!
# The handle of an input buffer

`InDevBinStreamBuf::open` and `close` of `src/io/BinStream/DevBinStream.cpp` with the system calls
they make. The constructor and a failed `open` leave `-1` in `m_rd`; `close` tests for `0` and
leaves `0`; `is_open` tests the sign.
-/

namespace CtrlrFx.Io
open Base

/-- What `::open` answers: a descriptor and the device behind it, or an error. -/
abbrev Answer := Option (Nat × Port)

namespace InDevBinStreamBuf

/-- `CtrlrFx/DevBinStream.h:73`. -/
def isOpen (b : BinStreamBuf InDev) : Bool := decide (b.dev.m_rd ≥ 0)

/-- `src/io/BinStream/DevBinStream.cpp:73–81`. -/
def close (b : BinStreamBuf InDev) : List HandleCall × BinStreamBuf InDev :=
  if b.dev.m_rd ≠ 0 then ([.close b.dev.m_rd], { b with dev := { b.dev with m_rd := 0 } })
  else ([], b)

/-- `src/io/BinStream/DevBinStream.cpp:58–69`. -/
def open_ (b : BinStreamBuf InDev) (answer : Answer) :
    Bool × List HandleCall × BinStreamBuf InDev :=
  let (calls, b) := close b
  let b :=
    match answer with
    | some (fd, port) => { b with dev := { m_rd := fd, port } }
    | none => { b with dev := { b.dev with m_rd := -1 } }
  (isOpen b, calls ++ [.open (answer.map Prod.fst)], b)

/-- A refill while `port` is behind the handle; `src/io/BinStream/DevBinStream.cpp:92–110`. -/
def refill (b : BinStreamBuf InDev) (port : Port) : List HandleCall × BinStreamBuf InDev :=
  ([.use b.dev.m_rd], (fill_buf { b with dev := { b.dev with port } }).2)

/-- Streams that were opened first of all have the descriptor in place. -/
theorem open_new (m_buf : List UInt8) (before port : Port) (fd : Nat) :
    (open_ (new m_buf before) (some (fd, port))).2.2 = (opened m_buf port fd).buf := by
  rfl

@[simp] theorem m_rd_fill_buf (b : BinStreamBuf InDev) : (fill_buf b).2.dev.m_rd = b.dev.m_rd := by
  have hread : ∀ (d : InDev) (n : Nat), (d.read n).2.2.m_rd = d.m_rd := by
    intro d n
    rw [InDev.read]
    split <;> rfl
  rw [fill_buf]
  dsimp only
  split
  · exact hread b.dev bufSize
  · exact hread b.dev bufSize

@[simp] theorem m_rd_refill (b : BinStreamBuf InDev) (port : Port) :
    (refill b port).2.dev.m_rd = b.dev.m_rd := m_rd_fill_buf _

@[simp] theorem m_rd_close (b : BinStreamBuf InDev) : (close b).2.dev.m_rd = 0 := by
  by_cases h : b.dev.m_rd = 0 <;> simp [close, h]

theorem m_rd_open_ (b : BinStreamBuf InDev) (answer : Answer) :
    (open_ b answer).2.2.dev.m_rd = (answer.map Prod.fst).elim (-1) fun fd ↦ (fd : Int) := by
  cases answer <;> rfl

theorem calls_open_ (b : BinStreamBuf InDev) (answer : Answer) :
    (open_ b answer).2.1 = (close b).1 ++ [.open (answer.map Prod.fst)] := rfl

/-- `open` returns the buffer exactly if the system gave a descriptor. -/
theorem open_ret (b : BinStreamBuf InDev) (answer : Answer) :
    (open_ b answer).1 = answer.isSome := by
  cases answer with
  | none => rfl
  | some a => simp [open_, isOpen]

/-! ### Lives of a buffer -/

/-- A call of a user, with what the system answers, and a refill at any moment. -/
inductive Op where
  | open_ (answer : Answer)
  | close
  | refill (port : Port)

/-- The destructor closes; `CtrlrFx/DevBinStream.h:92–95`. The buffer should be open if the last
`open` succeeded and no `close` followed it. -/
def owner : HandleOwner (BinStreamBuf InDev) Op where
  step b
    | .open_ answer => (open_ b answer).2
    | .close => close b
    | .refill port => refill b port
  destroy b := (close b).1
  isOpen := isOpen
  shouldBeOpen was
    | .open_ answer => answer.isSome
    | .close => false
    | .refill _ => was

/-- Calls that leave the two tests for no descriptor in agreement. -/
def Careful : Op → Prop
  | .open_ answer => answer.map Prod.fst ≠ some 0
  | .close => False
  | .refill _ => True

/-! ### Careful lives -/

/-- The buffer has the one descriptor that it opened last, which is not `0`, or none. -/
inductive Good (b : BinStreamBuf InDev) : List Nat → Bool → Prop where
  | closed : b.dev.m_rd = -1 → Good b [] false
  | opened {fd : Nat} : fd ≠ 0 → b.dev.m_rd = fd → Good b [fd] true

namespace Good

variable {b : BinStreamBuf InDev} {held : List Nat} {was : Bool}

theorem isOpen_eq (h : Good b held was) : isOpen b = was := by
  cases h with
  | closed hr => simp [isOpen, hr]
  | opened _ hr => simp [isOpen, hr]

/-- `close` settles what the buffer has. -/
theorem settle_close (h : Good b held was) :
    HandleCall.settleAll HandleCall.isError held (close b).1 = some [] := by
  cases h with
  | closed hr =>
    simp [close, hr, HandleCall.settleAll, HandleCall.settle, HandleCall.Holds,
      HandleCall.isError]
  | opened h0 hr =>
    simp [close, hr, h0, HandleCall.settleAll, HandleCall.settle, HandleCall.Holds]

/-- A refill is of what the buffer has. -/
theorem settle_refill (h : Good b held was) (port : Port) :
    HandleCall.settleAll HandleCall.isError held (refill b port).1 = some held := by
  cases h with
  | closed hr =>
    simp [refill, hr, HandleCall.settleAll, HandleCall.settle, HandleCall.Holds,
      HandleCall.isError]
  | opened h0 hr => simp [refill, hr, HandleCall.settleAll, HandleCall.settle, HandleCall.Holds]

theorem refill (h : Good b held was) (port : Port) : Good (refill b port).2 held was := by
  cases h with
  | closed hr => exact .closed ((m_rd_refill b port).trans hr)
  | opened h0 hr => exact .opened h0 ((m_rd_refill b port).trans hr)

/-- `open` settles what the buffer has, and takes what the system gives. -/
theorem open_ (h : Good b held was) {answer : Answer} (h0 : answer.map Prod.fst ≠ some 0) :
    ∃ held', HandleCall.settleAll HandleCall.isError held (open_ b answer).2.1 = some held' ∧
      Good (InDevBinStreamBuf.open_ b answer).2.2 held' answer.isSome := by
  have hrd := m_rd_open_ b answer
  rw [calls_open_, HandleCall.settleAll_append, h.settle_close, Option.bind_some]
  cases answer with
  | none => exact ⟨[], rfl, .closed hrd⟩
  | some a =>
    refine ⟨[a.1], rfl, .opened ?_ hrd⟩
    intro ha
    exact h0 (congrArg some ha)

end Good

theorem owner_keeps : owner.Keeps HandleCall.isError Careful Good where
  isOpen _ _ _ h := h.isOpen_eq
  destroy _ _ _ h := h.settle_close
  step b held was op h hop := by
    cases op with
    | open_ answer => exact h.open_ hop
    | close => exact hop.elim
    | refill port => exact ⟨held, h.settle_refill port, h.refill port⟩

/-! ### Other lives -/

/-- Behind `close` the buffer is taken to be open. -/
theorem not_tells_close (s : BinStreamBuf InDev × Bool) : ¬owner.Tells s .close := by
  simp [HandleOwner.Tells, owner, isOpen]

/-- The descriptor `0` is never closed. -/
theorem not_mem_close (b : BinStreamBuf InDev) : .close 0 ∉ (close b).1 := by
  by_cases h : b.dev.m_rd = 0
  · simp [close, h]
  · simp [close, h, Ne.symm h]

theorem not_mem_life (b : BinStreamBuf InDev) (ops : List Op) : .close 0 ∉ owner.life b ops := by
  apply HandleOwner.not_mem_life _ not_mem_close
  intro b op
  cases op with
  | open_ answer =>
    show _ ∉ (open_ b answer).2.1
    rw [calls_open_, List.mem_append, not_or]
    exact ⟨not_mem_close b, by simp⟩
  | close => exact not_mem_close b
  | refill port => simp [owner, refill]

/-- A managed life is a careful one: `0` would not be closed, and `close` would not be noticed. -/
theorem careful_of_managed {void : Int → Bool} (hv : void 0 = false) {b : BinStreamBuf InDev}
    {ops : List Op} (h : owner.Managed void b ops) : ∀ op ∈ ops, Careful op := by
  intro op hop
  cases op with
  | open_ answer =>
    intro h0
    apply not_mem_life b ops
    apply h.close_mem hv
    apply HandleOwner.mem_life hop
    intro b
    show _ ∈ (open_ b answer).2.1
    rw [calls_open_, h0]
    exact List.mem_append_right _ (List.mem_singleton.mpr rfl)
  | close => exact HandleOwner.not_mem_of_tells not_tells_close h.tells hop
  | refill port => trivial

/-- The first call of a new buffer is on `-1`. -/
theorem head_life (m_buf : List UInt8) (port : Port) (ops : List Op) :
    ∃ cs, owner.life (new m_buf port) ops = .close (-1) :: cs ∨
      owner.life (new m_buf port) ops = .use (-1) :: cs := by
  cases ops with
  | nil => exact ⟨[], .inl rfl⟩
  | cons op ops =>
    cases op with
    | open_ answer => exact ⟨_, .inl rfl⟩
    | close => exact ⟨_, .inl rfl⟩
    | refill p => exact ⟨_, .inr rfl⟩

/-- Whatever the user calls and the system answers: a new buffer is managed as it should be exactly
if nobody calls `close` and the system gives it no descriptor `0`, where `-1` is not taken for a
descriptor; where it is, no buffer is. -/
theorem handle_managed_iff (m_buf : List UInt8) (port : Port) (ops : List Op) :
    (owner.Managed HandleCall.isError (new m_buf port) ops ↔ ∀ op ∈ ops, Careful op) ∧
      ¬owner.Managed (fun _ ↦ false) (new m_buf port) ops := by
  constructor
  · constructor
    · intro h
      exact careful_of_managed rfl h
    · intro h
      exact owner_keeps.managed (.closed rfl) h
  · intro h
    have hs := h.settled
    obtain ⟨cs, hc | hc⟩ := head_life m_buf port ops
    · rw [hc] at hs
      cases hs
    · rw [hc] at hs
      cases hs

/-- A buffer that opened descriptor 3 is open after `close`. -/
theorem handle_not_managed : ¬∀ (m_buf : List UInt8) (port : Port) (ops : List Op),
    owner.Managed HandleCall.isError (new m_buf port) ops := by
  intro h
  have ht := (h [] (Port.deliver []) [.open_ (some (3, Port.deliver [])), .close]).tells
  exact absurd ht (by decide)

end InDevBinStreamBuf
end CtrlrFx.Io
