import Waste.Memory.Protection

/-!
# What every chunk of a write keeps

Each instruction that writes to a memory does it page by page: the page is made the
memory's own, and bytes of it are changed.  A property that survives these two steps
survives every instruction.
-/

namespace Waste.Memory

open StateExcept

/-- The property survives each chunk of a write to memory `m`. -/
structure Chunkwise (m : Nat) (P : Store → Prop) : Prop where
  own : ∀ page, Keeps P (ownPage m page)
  poke : ∀ page inPage count value s, P s → P (pokePage m page inPage count value s)

variable {m : Nat} {P : Store → Prop}

theorem Chunkwise.writeLoop (h : Chunkwise m P) (fuel address : Nat) (source : List UInt8) :
    Keeps P (writeLoop m fuel address source) := by
  induction fuel generalizing address source with
  | zero => exact .pure _
  | succ fuel ih =>
    refine .ite (fun _ => .pure _) fun _ => ?_
    exact (h.own _).bind fun _ => (Keeps.modify (h.poke _ _ _ _)).bind fun _ => ih _ _

theorem Chunkwise.fillLoop (h : Chunkwise m P) (value : UInt8) (fuel address length : Nat) :
    Keeps P (fillLoop m value fuel address length) := by
  induction fuel generalizing address length with
  | zero => exact .pure _
  | succ fuel ih =>
    refine .ite (fun _ => .pure _) fun _ => ?_
    refine .get_bind fun _ _ => .ite (fun _ => ih _ _) fun _ => ?_
    exact (h.own _).bind fun _ => (Keeps.modify (h.poke _ _ _ _)).bind fun _ => ih _ _

theorem memoryRead_stays (j offset length : Nat) : Keeps P (memoryRead j offset length) :=
  .get_bind fun _ _ => (Keeps.require _).bind fun _ => (Keeps.require _).bind fun _ =>
    (Keeps.require _).bind fun _ => .pure _

theorem Chunkwise.memoryWrite (h : Chunkwise m P) (offset : Nat) (source : List UInt8) :
    Keeps P (memoryWrite m offset source) :=
  .get_bind fun _ _ => (Keeps.require _).bind fun _ => (Keeps.require _).bind fun _ =>
    (Keeps.require _).bind fun _ => h.writeLoop _ _ _

theorem Chunkwise.executeMemoryCopy (h : Chunkwise m P) (dstOffset src srcOffset n : Nat) :
    Keeps P (executeMemoryCopy m dstOffset src srcOffset n) := by
  refine .get_bind fun _ _ => .ite (fun _ => .throw _) fun _ => ?_
  refine .get_bind fun _ _ => (Keeps.require _).bind fun _ => (Keeps.require _).bind fun _ => ?_
  refine copyLoops_rule (.pure _) (fun _ _ _ hrest => ?_) n
  exact (memoryRead_stays _ _ _).bind fun _ => (h.memoryWrite _ _).bind fun _ => hrest

theorem readLanes_stays (j address sourceWidth : Nat) (lanes : List Nat) :
    Keeps P (readLanes j address sourceWidth lanes) := by
  induction lanes with
  | nil => exact .pure _
  | cons _ _ ih =>
    exact (memoryRead_stays _ _ _).bind fun _ => ih.bind fun _ => .pure _

/-- Every instruction keeps what the chunks of its writes keep. -/
theorem GuestOp.comp_keeps (op : GuestOp) (h : Chunkwise op.target P) : Keeps P op.comp := by
  cases op with
  | load j base offset width =>
    refine .bind (.get_bind fun _ _ => (Keeps.require _).bind fun _ => ?_)
      fun _ => .pure _
    exact (memoryRead_stays _ _ _).bind fun _ => .pure _
  | vectorLoad j base offset width =>
    exact .get_bind fun _ _ => (Keeps.require _).bind fun _ => memoryRead_stays _ _ _
  | vectorLoadExtend j base offset _ =>
    exact .get_bind fun _ _ => (Keeps.require _).bind fun _ => readLanes_stays _ _ _ _
  | store | vectorStore =>
    refine .bind (.get_bind fun _ _ => (Keeps.require _).bind fun _ => ?_)
      fun _ => .pure _
    exact h.memoryWrite _ _
  | copy dst _ src _ n =>
    exact (h.executeMemoryCopy _ _ _ _).bind fun _ => .pure _
  | fill j dst _ n =>
    refine .bind ?_ fun _ => .pure _
    refine .get_bind fun _ _ => .ite (fun _ => .throw _) fun _ => ?_
    exact .get_bind fun _ _ => (Keeps.require _).bind fun _ => h.fillLoop _ _ _ _
  | init j dst src n _ =>
    refine .bind ?_ fun _ => .pure _
    exact .get_bind fun _ _ => .ite (fun _ => .throw _) fun _ => h.memoryWrite _ _

end Waste.Memory
