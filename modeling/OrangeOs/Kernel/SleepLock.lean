import OrangeOs.Kernel.Wait

/-! # The lock of a sleeper

`Sleep` releases the lock of its caller before it switches and takes it again after. With one CPU
nobody else takes or releases it, so the lock word stays set after a sleeper has come
back, until somebody sleeps again. A second sleeper that comes back before that spins with
interrupts off.
-/

namespace OrangeOs.Kernel.Scheduler

variable {s t : Scheduler} {a : Act} {p : Slot} {l : Lock}

/-- Among the calls of `Sleep` with the lock and the returns from them, the latest is a return. -/
def returned (l : Lock) (steps : List Act) : Bool :=
  steps.foldl (fun r a => match a with
    | .sleep _ (some m) => if m = l then false else r
    | .wake (some m) => if m = l then true else r
    | _ => r) false

end OrangeOs.Kernel.Scheduler
