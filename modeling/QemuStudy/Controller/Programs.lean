/-
  The code of the parties in `apps/controller.c`, from the moment they are connected: what each
  main function still does and what its signal handlers do, statement by statement.

  The handlers test `if (signal == SIGUSR1)` (or SIGUSR2) first; each is installed for that one
  signal, so the test always holds and is not repeated here.  `sprintf` into the local `instr` is
  left out: the command it builds is the `Command` that `execute` names.
-/
import QemuStudy.Controller.Process

namespace QemuStudy.Controller

/-! ## QEMU mode: the destination -/

/-- The common body of `signal_handler_dst_1` and `signal_handler_dst_2`, which differ in the
    printed line only. -/
def signalHandlerDst : List Stmt :=
  [.stdio, .stdio,
    .writeToFile .connfd (.byCount .qemuVmRestart .qemuPostCopyFinish)] ++
  unlessCount [.sleep, .execute .pinVmToCores] ++
  [.setCount]

/-- `signal_handler_dst_1`, installed for SIGUSR1. -/
def signalHandlerDst1 : List Stmt := signalHandlerDst

/-- `signal_handler_dst_2`, installed for SIGUSR2. -/
def signalHandlerDst2 : List Stmt := signalHandlerDst

/-- `qemu_dst_main` installs both handlers, boots the VM and connects; then it idles. -/
def qemuDst : Program where
  main := [.idle]
  handler
    | .usr1 => signalHandlerDst1
    | .usr2 => signalHandlerDst2
  installed := [.usr1, .usr2]

/-! ## Shared-memory mode: the source -/

/-- `signal_handler_shm_src_complete`, installed for SIGUSR1: the image is complete.  The pre-copy
    handler must have been through, or the `assert` ends the source. -/
def signalHandlerShmSrcComplete : List Stmt :=
  [.assertCount, .stdio, .stdio,
    .writeToFile .connfd (.text .completeVmImage),
    .execute .quitSrc]

/-- `signal_handler_shm_src_precopy`, installed for SIGUSR2: pre-copy is over. -/
def signalHandlerShmSrcPrecopy : List Stmt :=
  [.stdio, .stdio,
    .writeToFile .connfd (.text .shmPreCopyFinish),
    .setCount]

/-- `shm_src_main` after `listen_wrapper`. -/
def shmSrcMain : List Stmt :=
  [.receive .connfd .shmMigrate,
    .execute .shmMigrate,
    .receive .connfd .shmMigrateSwitchover,
    .execute .shmMigrateSwitchover,
    .idle]

/-- Both handlers are installed before the source listens for its connection. -/
def shmSrc : Program where
  main := shmSrcMain
  handler
    | .usr1 => signalHandlerShmSrcComplete
    | .usr2 => signalHandlerShmSrcPrecopy
  installed := [.usr1, .usr2]

/-! ## Shared-memory mode: the destination -/

/-- `signal_handler_shm_dst`, installed for SIGUSR1: the destination's VM runs.  It announces this
    first and measures how long the load has taken afterwards. -/
def signalHandlerShmDst : List Stmt :=
  [.writeToFile .connfd (.text .switchoverFinished),
    .clock, .stdio, .stdio]

/-- `shm_dst_main` after `listen_wrapper`; its handler is installed with the connection already
    up, and SIGUSR2 has none. -/
def shmDstMain : List Stmt :=
  [.signal .usr1,
    .receive .connfd .startTargetVm,
    .stdio, .stdio,
    .execute .dstBoot,
    .receive .connfd .shmLoadVmImage,
    .clock,
    .retry .migrateIncomingShm,
    .idle]

/-- Nothing is installed yet when the connection is made. -/
def shmDst : Program where
  main := shmDstMain
  handler
    | .usr1 => signalHandlerShmDst
    | .usr2 => []
  installed := []

/-! ## Shared-memory mode: the backup -/

/-- `signal_handler_shm_backup`, installed for SIGUSR1: the whole conversation of the backup, from
    the order to migrate to the report. -/
def signalHandlerShmBackup : List Stmt :=
  [.stdio, .stdio, .stdio,
    .writeToFile .srcfd (.text .shmMigrate),
    .sleep, .clock,
    .writeToFile .srcfd (.text .shmMigrateSwitchover),
    .sleep,
    .writeToFile .dstfd (.text .startTargetVm),
    .receive .srcfd .shmPreCopyFinish,
    .clock, .stdio, .stdio,
    .receive .srcfd .completeVmImage,
    .writeToFile .dstfd (.text .shmLoadVmImage),
    .receive .dstfd .switchoverFinished,
    .clock, .stdio, .stdio, .stdio, .stdio]

/-- `shm_backup_main` after the two `connect_wrapper` calls: the pid file, the handler, the idle
    loop. -/
def shmBackupMain : List Stmt := [.stdio, .signal .usr1, .idle]

/-- A SIGUSR1 between the pid file and `signal` finds no handler. -/
def shmBackup : Program where
  main := shmBackupMain
  handler
    | .usr1 => signalHandlerShmBackup
    | .usr2 => []
  installed := []

end QemuStudy.Controller
