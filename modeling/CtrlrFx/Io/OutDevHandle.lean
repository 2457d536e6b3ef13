import CtrlrFx.Base.Handles
import CtrlrFx.Io.OutDevBinStream

/-!
# The handle of an output buffer

`OutDevBinStreamBuf::open` and `close` of `src/io/BinStream/DevBinStream.cpp` with the system calls
they make. All of the class takes a negative `m_wr` for no descriptor.
-/

namespace CtrlrFx.Io
open Base

namespace OutDevBinStreamBuf

/-- `CtrlrFx/DevBinStream.h:131`. -/
def isOpen (b : BinStreamBuf OutDev) : Bool := decide (b.dev.m_wr ≥ 0)

/-- System calls of `close`: the write of `sync`, and the close;
`src/io/BinStream/DevBinStream.cpp:185–194`. -/
def closeCalls (b : BinStreamBuf OutDev) : List HandleCall :=
  if b.dev.m_wr ≥ 0 then [.use b.dev.m_wr, .close b.dev.m_wr] else []

/-- What `::open` returns. -/
def descriptor (answer : Option Nat) : Int := answer.elim (-1) fun fd ↦ (fd : Int)

/-- A call of a user, with what the system answers, and a write at any moment. -/
inductive HandleOp where
  | open_ (answer : Option Nat)
  | close
  | sync

/-- The destructor closes; `CtrlrFx/DevBinStream.h:143–146`. -/
def owner : HandleOwner (BinStreamBuf OutDev) HandleOp where
  step b
    | .open_ answer => (closeCalls b ++ [.open answer], open_ b (descriptor answer))
    | .close => (closeCalls b, close b)
    | .sync => ([.use b.dev.m_wr], (sync b).2)
  destroy := closeCalls
  isOpen := isOpen
  shouldBeOpen was
    | .open_ answer => answer.isSome
    | .close => false
    | .sync => was

/-- The buffer has the one descriptor that it opened last, or none. -/
inductive Has (b : BinStreamBuf OutDev) : List Nat → Bool → Prop where
  | closed : b.dev.m_wr = -1 → Has b [] false
  | opened {fd : Nat} : b.dev.m_wr = fd → Has b [fd] true

@[simp] theorem m_wr_sync (b : BinStreamBuf OutDev) : (sync b).2.dev.m_wr = b.dev.m_wr := by
  have hwrite : ∀ (d : OutDev) (bs : List UInt8), (d.write bs).2.m_wr = d.m_wr := by
    intro d bs
    rw [OutDev.write]
    split <;> rfl
  rw [sync]
  split
  · exact hwrite b.dev (held b)
  · exact hwrite b.dev (held b)

namespace Has

variable {b : BinStreamBuf OutDev} {fds : List Nat} {was : Bool} {void : Int → Bool}

theorem isOpen_eq (h : Has b fds was) : isOpen b = was := by
  cases h with
  | closed hr => simp [isOpen, hr]
  | opened hr => simp [isOpen, hr]

theorem settle_close (h : Has b fds was) :
    HandleCall.settleAll void fds (closeCalls b) = some [] := by
  cases h with
  | closed hr => simp [closeCalls, hr, HandleCall.settleAll]
  | opened hr =>
    simp [closeCalls, hr, HandleCall.settleAll, HandleCall.settle, HandleCall.Holds]

theorem close (h : Has b fds was) : Has (close b) [] false := by
  cases h with
  | closed hr =>
    have hb : OutDevBinStreamBuf.close b = b := if_neg (by rw [hr]; decide)
    rw [hb]
    exact .closed hr
  | opened hr =>
    have hb : b.dev.m_wr ≥ 0 := by
      rw [hr]
      exact Int.natCast_nonneg _
    rw [OutDevBinStreamBuf.close, if_pos hb]
    exact .closed rfl

/-- A write is of what the buffer has; without a descriptor it is on `-1`. -/
theorem settle_sync (h : Has b fds was) (hv : void (-1) = true) :
    HandleCall.settleAll void fds [.use b.dev.m_wr] = some fds := by
  cases h with
  | closed hr => simp [hr, hv, HandleCall.settleAll, HandleCall.settle, HandleCall.Holds]
  | opened hr => simp [hr, HandleCall.settleAll, HandleCall.settle, HandleCall.Holds]

theorem sync (h : Has b fds was) : Has (sync b).2 fds was := by
  cases h with
  | closed hr => exact .closed ((m_wr_sync b).trans hr)
  | opened hr => exact .opened ((m_wr_sync b).trans hr)

end Has

theorem owner_keeps (void : Int → Bool) :
    owner.Keeps void (fun op ↦ op = .sync → void (-1) = true) Has where
  isOpen _ _ _ h := h.isOpen_eq
  destroy _ _ _ h := h.settle_close
  step b fds was op h hop := by
    cases op with
    | open_ answer =>
      show ∃ held', HandleCall.settleAll void fds (closeCalls b ++ [.open answer]) = some held' ∧
        Has (open_ b (descriptor answer)) held' answer.isSome
      rw [HandleCall.settleAll_append, h.settle_close, Option.bind_some]
      cases answer with
      | none => exact ⟨[], rfl, .closed rfl⟩
      | some fd => exact ⟨[fd], rfl, .opened rfl⟩
    | close => exact ⟨[], h.settle_close, h.close⟩
    | sync => exact ⟨fds, h.settle_sync (hop rfl), h.sync⟩

end OutDevBinStreamBuf
end CtrlrFx.Io
