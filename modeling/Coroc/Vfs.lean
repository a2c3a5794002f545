import Mathlib.Logic.Basic

/-!
# Files (`src/src/vfs.c`)

A file operation calls a function of its driver.  With `sync` the caller does so itself;
without it, the arguments are put into an `ops` record, a thread of the pool runs
`coroc_vfs_callback` on it, and the caller returns `ops.arg0` when it is resumed.

* `Machine` holds what the driver's functions work on, and a record of the calls made.
* `async_agrees_iff`: both ways make the same calls and return the same value, unless the
  operation is a close for which the driver returns something else than 0, or a seek and the
  driver has no `lseek`.
-/

namespace Coroc.Vfs

/-! ### Drivers -/

/-- An address of the caller's memory. -/
abbrev Ptr := UInt64

/-- A driver over the world `W`.  The third argument of `open` is a variadic word. -/
structure Driver (W : Type) where
  open_ : Ptr → Int32 → UInt32 → W → Int32 × W
  read : Int32 → Ptr → UInt64 → W → Int64 × W
  write : Int32 → Ptr → UInt64 → W → Int64 × W
  lseek : Option (Int32 → Int64 → Int32 → W → Int64 × W)
  flush : Option (Int32 → W → W)
  ioctl : Option (Int32 → Int32 → Int32 → W → Int32 × W)
  close : Int32 → W → Int32 × W

/-- The system calls of the default driver. -/
structure Libc (W : Type) where
  open_ : Ptr → Int32 → UInt32 → W → Int32 × W
  read : Int32 → Ptr → UInt64 → W → Int64 × W
  write : Int32 → Ptr → UInt64 → W → Int64 × W
  lseek : Int32 → Int64 → Int32 → W → Int64 × W
  close : Int32 → W → Int32 × W

section
variable {W : Type}

/-- `coroc_vfs_file_drv`. -/
def fileDrv (libc : Libc W) : Driver W where
  open_ := libc.open_
  read := libc.read
  write := libc.write
  lseek := some libc.lseek
  flush := none
  ioctl := none
  close := libc.close

/-- A call of a driver's function. -/
inductive Call where
  | open_ (name : Ptr) (flags : Int32) (mode : UInt32)
  | read (fd : Int32) (buf : Ptr) (size : UInt64)
  | write (fd : Int32) (buf : Ptr) (size : UInt64)
  | lseek (fd : Int32) (offset : Int64) (whence : Int32)
  | flush (fd : Int32)
  | ioctl (fd cmd option : Int32)
  | close (fd : Int32)
deriving DecidableEq, Repr

/-- The world, and the calls made so far, the last one first. -/
structure Machine (W : Type) where
  world : W
  calls : List Call
deriving DecidableEq, Repr

/-- Calling a function of the driver. -/
def invoke {α : Type} (call : Call) (f : W → α × W) : StateM (Machine W) α := fun m =>
  ((f m.world).1, ⟨(f m.world).2, call :: m.calls⟩)

def Driver.callOpen (drv : Driver W) (name : Ptr) (flags : Int32) (mode : UInt32) :
    StateM (Machine W) Int32 :=
  invoke (.open_ name flags mode) (drv.open_ name flags mode)

def Driver.callRead (drv : Driver W) (fd : Int32) (buf : Ptr) (size : UInt64) :
    StateM (Machine W) Int64 :=
  invoke (.read fd buf size) (drv.read fd buf size)

def Driver.callWrite (drv : Driver W) (fd : Int32) (buf : Ptr) (size : UInt64) :
    StateM (Machine W) Int64 :=
  invoke (.write fd buf size) (drv.write fd buf size)

def Driver.callClose (drv : Driver W) (fd : Int32) : StateM (Machine W) Int32 :=
  invoke (.close fd) (drv.close fd)

/-! ### The `ops` record -/

inductive OpsType where
  | open_ | close | read | write | lseek | flush | ioctl
deriving DecidableEq, Repr

/-- `coroc_vfs_ops`. -/
structure Ops (W : Type) where
  fd : Int32
  opsType : OpsType
  arg0 : Int64
  arg1 : Int64
  buf : Ptr
  driver : Driver W

/-- `__coroc_vfs_init_ops`. -/
def initOps (type : OpsType) (fd : Int32) (arg0 arg1 : Int64) (buf : Ptr) (drv : Driver W) :
    Ops W where
  fd := fd
  opsType := type
  arg0 := arg0
  arg1 := arg1
  buf := buf
  driver := drv

/-- `coroc_vfs_callback`; `off` is what the local variable of the seek holds before. -/
def vfsCallback (off : Int64) (ops : Ops W) : StateM (Machine W) (Ops W) :=
  match ops.opsType with
  | .open_ => do
    let fd ← ops.driver.callOpen ops.buf ops.arg0.toInt32 ops.arg1.toInt32.toUInt32
    return { ops with arg0 := fd.toInt64 }
  | .close => do
    let _ ← ops.driver.callClose ops.fd
    return ops
  | .flush =>
    match ops.driver.flush with
    | some flush => do
      invoke (.flush ops.fd) fun w => ((), flush ops.fd w)
      return ops
    | none => return ops
  | .read => do
    let sz ← ops.driver.callRead ops.fd ops.buf ops.arg0.toUInt64
    return { ops with arg0 := sz }
  | .write => do
    let sz ← ops.driver.callWrite ops.fd ops.buf ops.arg0.toUInt64
    return { ops with arg0 := sz }
  | .lseek =>
    match ops.driver.lseek with
    | some lseek => do
      let off ← invoke (.lseek ops.fd ops.arg0 ops.arg1.toInt32)
        (lseek ops.fd ops.arg0 ops.arg1.toInt32)
      return { ops with arg0 := off }
    | none => return { ops with arg0 := off }
  | .ioctl =>
    match ops.driver.ioctl with
    | some ioctl => do
      let ret ← invoke (.ioctl ops.fd ops.arg0.toInt32 ops.arg1.toInt32)
        (ioctl ops.fd ops.arg0.toInt32 ops.arg1.toInt32)
      return { ops with arg0 := ret.toInt64 }
    | none => return { ops with arg0 := (-1 : Int32).toInt64 }

/-- `__coroc_vfs_add_ops`: a thread of the pool runs the callback once, and the caller goes on
    after it (`Coroc.AsyncPool`). -/
def addOps (off : Int64) (ops : Ops W) : StateM (Machine W) (Ops W) :=
  vfsCallback off ops

/-! ### The operations -/

/-- `O_CREAT`. -/
def oCreat : Int32 := 0x40

/-- The driver of a call: the default one for `NULL`. -/
def driverOf (libc : Libc W) (drv : Option (Driver W)) : Driver W := drv.getD (fileDrv libc)

/-- `__coroc_vfs_open`; `arg` is the variadic argument. -/
def vfsOpen (libc : Libc W) (off : Int64) (drv : Option (Driver W)) (sync : Bool) (name : Ptr)
    (flags : Int32) (arg : UInt32) : StateM (Machine W) Int32 :=
  let drv := driverOf libc drv
  let mode := if flags &&& oCreat ≠ 0 then arg else 0o644
  if sync then drv.callOpen name flags mode
  else do
    let ops ← addOps off (initOps .open_ 0 flags.toInt64 mode.toUInt64.toInt64 name drv)
    return ops.arg0.toInt32

/-- `__coroc_vfs_close`. -/
def vfsClose (libc : Libc W) (off : Int64) (drv : Option (Driver W)) (sync : Bool) (fd : Int32) :
    StateM (Machine W) Int32 :=
  let drv := driverOf libc drv
  if sync then drv.callClose fd
  else do
    let ops ← addOps off (initOps .close fd 0 0 0 drv)
    return ops.arg0.toInt32

/-- `__coroc_vfs_flush`. -/
def vfsFlush (libc : Libc W) (off : Int64) (drv : Option (Driver W)) (sync : Bool) (fd : Int32) :
    StateM (Machine W) Unit :=
  let drv := driverOf libc drv
  match sync, drv.flush with
  | true, some flush => invoke (.flush fd) fun w => ((), flush fd w)
  | _, _ => do
    let _ ← addOps off (initOps .flush fd 0 0 0 drv)
    return ()

/-- `__coroc_vfs_read`. -/
def vfsRead (libc : Libc W) (off : Int64) (drv : Option (Driver W)) (sync : Bool) (fd : Int32)
    (buf : Ptr) (size : UInt64) : StateM (Machine W) Int64 :=
  let drv := driverOf libc drv
  if sync then drv.callRead fd buf size
  else do
    let ops ← addOps off (initOps .read fd size.toInt64 0 buf drv)
    return ops.arg0

/-- `__coroc_vfs_write`. -/
def vfsWrite (libc : Libc W) (off : Int64) (drv : Option (Driver W)) (sync : Bool) (fd : Int32)
    (buf : Ptr) (size : UInt64) : StateM (Machine W) Int64 :=
  let drv := driverOf libc drv
  if sync then drv.callWrite fd buf size
  else do
    let ops ← addOps off (initOps .write fd size.toInt64 0 buf drv)
    return ops.arg0

/-- `__coroc_vfs_lseek`. -/
def vfsLseek (libc : Libc W) (off : Int64) (drv : Option (Driver W)) (sync : Bool) (fd : Int32)
    (offset : Int64) (whence : Int32) : StateM (Machine W) Int64 :=
  let drv := driverOf libc drv
  if sync then
    match drv.lseek with
    | none => return -1
    | some lseek => invoke (.lseek fd offset whence) (lseek fd offset whence)
  else do
    let ops ← addOps off (initOps .lseek fd offset whence.toInt64 0 drv)
    return ops.arg0

/-- `__coroc_vfs_ioctl`; `option` is the variadic argument. -/
def vfsIoctl (libc : Libc W) (off : Int64) (drv : Option (Driver W)) (sync : Bool)
    (fd cmd option : Int32) : StateM (Machine W) Int32 :=
  let drv := driverOf libc drv
  if sync then
    match drv.ioctl with
    | none => return -1
    | some ioctl => invoke (.ioctl fd cmd option) (ioctl fd cmd option)
  else do
    let ops ← addOps off (initOps .ioctl fd cmd.toInt64 option.toInt64 0 drv)
    return ops.arg0.toInt32

/-- An operation with its arguments. -/
inductive Op where
  | open_ (name : Ptr) (flags : Int32) (arg : UInt32)
  | close (fd : Int32)
  | flush (fd : Int32)
  | read (fd : Int32) (buf : Ptr) (size : UInt64)
  | write (fd : Int32) (buf : Ptr) (size : UInt64)
  | lseek (fd : Int32) (offset : Int64) (whence : Int32)
  | ioctl (fd cmd option : Int32)

/-- What an operation returns. -/
inductive Value where
  | int (v : Int32)
  | long (v : Int64)
  | void
deriving DecidableEq, Repr

/-- The operation on a machine. -/
def perform (libc : Libc W) (off : Int64) (drv : Option (Driver W)) (sync : Bool) :
    Op → Machine W → Value × Machine W
  | .open_ name flags arg, m => (vfsOpen libc off drv sync name flags arg m).map .int id
  | .close fd, m => (vfsClose libc off drv sync fd m).map .int id
  | .flush fd, m => (vfsFlush libc off drv sync fd m).map (fun _ => .void) id
  | .read fd buf size, m => (vfsRead libc off drv sync fd buf size m).map .long id
  | .write fd buf size, m => (vfsWrite libc off drv sync fd buf size m).map .long id
  | .lseek fd offset whence, m => (vfsLseek libc off drv sync fd offset whence m).map .long id
  | .ioctl fd cmd option, m => (vfsIoctl libc off drv sync fd cmd option m).map .int id

/-! ### Both ways compared -/

variable {libc : Libc W} {off : Int64} {drv : Option (Driver W)} {m : Machine W}

/-- An `int` survives the way through `arg0`. -/
theorem invoke_through (call : Call) (f : W → Int32 × W) (m : Machine W) :
    ((invoke call f m).1.toInt64.toInt32, (invoke call f m).2) = invoke call f m := by
  rw [Int32.toInt32_toInt64]
  rfl

/-- The mode survives the way through `arg1`. -/
theorem mode_through (mode : UInt32) : mode.toUInt64.toInt64.toInt32.toUInt32 = mode := by
  apply UInt32.toBitVec_inj.mp
  have hword : (mode.toBitVec.setWidth 64).signExtend 32 = mode.toBitVec := by
    rw [BitVec.signExtend_eq_setWidth_of_le _ (by decide), BitVec.setWidth_setWidth_of_le _ (by decide),
      BitVec.setWidth_eq]
  simpa using hword

theorem vfsOpen_async (name : Ptr) (flags : Int32) (arg : UInt32) :
    vfsOpen libc off drv false name flags arg m = vfsOpen libc off drv true name flags arg m := by
  simp only [vfsOpen, addOps, vfsCallback, initOps, Int32.toInt32_toInt64, mode_through]
  exact invoke_through _ _ m

theorem vfsFlush_async (fd : Int32) :
    vfsFlush libc off drv false fd m = vfsFlush libc off drv true fd m := by
  cases hflush : (driverOf libc drv).flush with
  | none => simp only [vfsFlush, hflush]
  | some flush =>
    simp only [vfsFlush, addOps, vfsCallback, initOps, hflush]
    rfl

theorem vfsRead_async (fd : Int32) (buf : Ptr) (size : UInt64) :
    vfsRead libc off drv false fd buf size m = vfsRead libc off drv true fd buf size m := by
  rfl

theorem vfsWrite_async (fd : Int32) (buf : Ptr) (size : UInt64) :
    vfsWrite libc off drv false fd buf size m = vfsWrite libc off drv true fd buf size m := by
  rfl

/-- Without `sync` a close returns 0. -/
theorem vfsClose_async (fd : Int32) :
    vfsClose libc off drv false fd m = (0, (vfsClose libc off drv true fd m).2) := by
  rfl

theorem vfsLseek_async {lseek : Int32 → Int64 → Int32 → W → Int64 × W}
    (h : (driverOf libc drv).lseek = some lseek) (fd : Int32) (offset : Int64) (whence : Int32) :
    vfsLseek libc off drv false fd offset whence m = vfsLseek libc off drv true fd offset whence m := by
  simp only [vfsLseek, addOps, vfsCallback, initOps, h, Int32.toInt32_toInt64]
  rfl

/-- Without `lseek`, what the variable held is returned. -/
theorem vfsLseek_missing (h : (driverOf libc drv).lseek = none) (fd : Int32) (offset : Int64)
    (whence : Int32) : vfsLseek libc off drv false fd offset whence m = (off, m) ∧
      vfsLseek libc off drv true fd offset whence m = (-1, m) := by
  simp only [vfsLseek, addOps, vfsCallback, initOps, h]
  exact ⟨rfl, rfl⟩

theorem vfsIoctl_async (fd cmd option : Int32) :
    vfsIoctl libc off drv false fd cmd option m = vfsIoctl libc off drv true fd cmd option m := by
  cases hioctl : (driverOf libc drv).ioctl with
  | none =>
    simp only [vfsIoctl, addOps, vfsCallback, initOps, hioctl]
    rfl
  | some ioctl =>
    simp only [vfsIoctl, addOps, vfsCallback, initOps, hioctl, Int32.toInt32_toInt64]
    exact invoke_through _ _ m

/-- The operations that go wrong without `sync`: a close that the driver does not answer with
    0, and a seek that the driver does not have. -/
def Lossy (drv : Driver W) (w : W) : Op → Prop
  | .close fd => (drv.close fd w).1 ≠ 0
  | .lseek .. => drv.lseek = none
  | _ => False

theorem perform_async_close (fd : Int32) :
    perform libc off drv false (.close fd) m = perform libc off drv true (.close fd) m ↔
      ¬ Lossy (driverOf libc drv) m.world (.close fd) := by
  simp only [perform, vfsClose_async, Lossy, not_not]
  constructor
  · intro h
    have hvalue := congrArg Prod.fst h
    exact (Value.int.inj hvalue).symm
  · intro h
    have hzero : (vfsClose libc off drv true fd m).1 = 0 := h
    rw [← hzero]
    rfl

theorem perform_async_lseek (fd : Int32) (offset : Int64) (whence : Int32) :
    (∀ off, perform libc off drv false (.lseek fd offset whence) m =
        perform libc off drv true (.lseek fd offset whence) m) ↔
      ¬ Lossy (driverOf libc drv) m.world (.lseek fd offset whence) := by
  constructor
  · intro h hnone
    have hzero := congrArg Prod.fst (h 0)
    obtain ⟨hasync, hsync⟩ := @vfsLseek_missing W libc 0 drv m hnone fd offset whence
    rw [perform, perform, hasync, hsync] at hzero
    exact absurd (Value.long.inj hzero) (by decide)
  · intro h off
    obtain ⟨lseek, hlseek⟩ := Option.ne_none_iff_exists'.mp h
    rw [perform, perform, vfsLseek_async hlseek]

/-- **Asynchronous operations agree with synchronous ones**, whatever the uninitialised
    variable holds, if and only if the operation is not one of the lossy ones. -/
theorem async_agrees_iff (libc : Libc W) (drv : Option (Driver W)) (op : Op) (m : Machine W) :
    (∀ off, perform libc off drv false op m = perform libc off drv true op m) ↔
      ¬ Lossy (driverOf libc drv) m.world op := by
  cases op with
  | open_ name flags arg =>
    simp only [perform, vfsOpen_async, Lossy, not_false_eq_true, implies_true]
  | close fd =>
    simp only [perform_async_close, forall_const]
  | flush fd =>
    simp only [perform, vfsFlush_async, Lossy, not_false_eq_true, implies_true]
  | read fd buf size =>
    simp only [perform, vfsRead_async, Lossy, not_false_eq_true, implies_true]
  | write fd buf size =>
    simp only [perform, vfsWrite_async, Lossy, not_false_eq_true, implies_true]
  | lseek fd offset whence => exact perform_async_lseek fd offset whence
  | ioctl fd cmd option =>
    simp only [perform, vfsIoctl_async, Lossy, not_false_eq_true, implies_true]

end

/-- A driver whose files are all closed already, and which cannot seek. -/
def closedDrv : Driver Unit where
  open_ _ _ _ _ := (-1, ())
  read _ _ _ _ := (-1, ())
  write _ _ _ _ := (-1, ())
  lseek := none
  flush := none
  ioctl := none
  close _ _ := (-1, ())

def closedLibc : Libc Unit where
  open_ _ _ _ _ := (-1, ())
  read _ _ _ _ := (-1, ())
  write _ _ _ _ := (-1, ())
  lseek _ _ _ _ := (-1, ())
  close _ _ := (-1, ())

/-- The failed close is reported as 0, and the seek returns what was on the stack. -/
theorem async_loses_errors :
    perform closedLibc 0 (some closedDrv) true (.close 3) ⟨(), []⟩ = (.int (-1), ⟨(), [.close 3]⟩) ∧
      perform closedLibc 0 (some closedDrv) false (.close 3) ⟨(), []⟩ = (.int 0, ⟨(), [.close 3]⟩) ∧
      perform closedLibc 7 (some closedDrv) true (.lseek 3 0 0) ⟨(), []⟩ = (.long (-1), ⟨(), []⟩) ∧
      perform closedLibc 7 (some closedDrv) false (.lseek 3 0 0) ⟨(), []⟩ = (.long 7, ⟨(), []⟩) := by
  decide

end Coroc.Vfs
