/-
  The six party functions of `apps/controller.c` and their signal handlers, instruction by
  instruction, in the order of the source, from the first `printf` of `main` on.

  Handlers test `if (signal == SIGUSR1)` (or SIGUSR2) first; each is installed for that one signal,
  so the test always holds and is not repeated.  `flag` is the argument of `qemu_src_main` and
  `qemu_dst_main`: `true` for pre-copy.

  `machine` puts the parties together, each with the mode and the arguments its own process was
  started with: nothing makes sure that they agree.
-/
import QemuStudy.Deployment.Instr

namespace QemuStudy.Deployment

open QemuStudy.Controller (Role Signal Fd Msg ascii DATA_LEN)
open QemuStudy.Threads (Machine State)

/-! ## Texts -/

inductive Mode
  | shm
  | qemuPrecopy
  | qemuPostcopy
  deriving DecidableEq, Repr

def Mode.text : Mode → String
  | .shm => "shm"
  | .qemuPrecopy => "qemu-precopy"
  | .qemuPostcopy => "qemu-postcopy"

/-- `bool flag = !strcmp(argv[1], "qemu-precopy")`. -/
def Mode.flag (mode : Mode) : Bool := mode = .qemuPrecopy

/-- Shared memory or one of the QEMU modes. -/
def Mode.isShm (mode : Mode) : Bool := mode = .shm

def roleText : Role → String
  | .backup => "backup"
  | .src => "src"
  | .dst => "dst"

/-- `printf("label%s\n", f)`. -/
def printField (label : String) (f : Field) : Instr := .print [.lit label, .str f, .lit "\n"]

/-- `printf("label%s:%s\n", ip, port)`. -/
def printAddr (label : String) (ip port : Field) : Instr :=
  .print [.lit label, .str ip, .lit ":", .str port, .lit "\n"]

/-- `printf("label: %lld ns\n", b - a)`. -/
def printSpan (label : String) (a b : Clock) : Instr :=
  .print [.lit label, .lit ": ", .span a b, .lit " ns\n"]

/-- `printf("label: %lld ns\n", c)`. -/
def printInstant (label : String) (c : Clock) : Instr :=
  .print [.lit label, .lit ": ", .instant c, .lit " ns\n"]

def printText (text : String) : Instr := .print [.lit text]

/-- What `main` prints before it calls the party's function. -/
def mainPrints (mode : Mode) (r : Role) : List Instr :=
  [.print [.lit "Migration mode: ", .lit mode.text, .lit "\n"],
    .print [.lit "Machine type: ", .lit (roleText r), .lit "\n"]] ++
  (match r with
    | .backup => []
    | .src => [printField "benchmark script: " .benchScript, printField "# of vCPU: " .cpuNum,
        printField "Memory size: " .memorySize, printField "Output file: " .outputFile]
    | .dst => [printField "# of vCPU: " .cpuNum, printField "Memory size: " .memorySize,
        printField "Output file: " .outputFile]) ++
  (if mode.isShm = false ∧ r ≠ .backup then [printField "Max-bandwidth: " .maxBandwidth] else [])

/-! ## QEMU mode -/

def signalHandlerSrc : List Instr :=
  [printText "src: Received SIGUSR1 signal\n", .fflush,
    .write .connfd (.text .qemuPreCopyFinish)]

/-- `assert(execute_wrapper(instr) == 0)` for both capabilities, without `flag`. -/
def setCapabilities (side : Side) (flag : Bool) : List Instr :=
  if flag then [] else [.check (.postcopyRam side), .check (.postcopyPreempt side)]

def qemuSrcMain (flag : Bool) : List Instr :=
  [printText "Hello from the source!\n", .pidFile, .signal .usr1,
    .spawn .srcBoot,
    .retry (.maxBandwidth .src),
    printText "The target downtime is 150ms.\n",
    .system .downtimeLimit] ++
  setCapabilities .src flag ++
  [printAddr "addr:  " .srcIp .srcControlPort] ++ listenWrapper .srcIp .srcControlPort ++
  receive .connfd .qemuMigrate ++
  [.check .migrate] ++
  (if flag then [] else [.check .startPostcopy]) ++
  [.sleep, .system (.pinVmToCores .src), .idle]

/-- The common body of `signal_handler_dst_1` and `signal_handler_dst_2`. -/
def signalHandlerDst (text : String) : List Instr :=
  [printText text, .fflush,
    .choose .qemuVmRestart .qemuPostCopyFinish,
    .write .connfd .chosen,
    .testCount,
    .sleepIfClear,
    .systemIfClear (.pinVmToCores .dst),
    .setCount]

def signalHandlerDst1 : List Instr := signalHandlerDst "dst: Received SIGUSR1 signal\n"

def signalHandlerDst2 : List Instr := signalHandlerDst "dst: Received SIGUSR2 signal\n"

def qemuDstMain (flag : Bool) : List Instr :=
  [printText "Hello from the dest!\n", .pidFile, .signal .usr1, .signal .usr2,
    printText "Starting dest VM!\n", .fflush,
    .print (Command.dstBoot.format ++ [.lit "\n"]),
    .spawn .dstBoot,
    .retry (.maxBandwidth .dst)] ++
  setCapabilities .dst flag ++
  [.check .migrateIncoming,
    printAddr "addr:  " .dstIp .dstControlPort] ++ listenWrapper .dstIp .dstControlPort ++
  [.idle]

def signalHandlerBackup : List Instr :=
  [printText "backup: Received SIGUSR1 signal\n", .fflush,
    .print [.lit "The wait to migrate duration is ", .int .writeThroughDuration 0, .lit "\n"],
    .sleep,
    .clock .beforeMigrate,
    .write .srcfd (.text .qemuMigrate)] ++
  receive .srcfd .qemuPreCopyFinish ++
  [.clock .preCopyFinish,
    printSpan "pre-copy duration" .beforeMigrate .preCopyFinish, .fflush] ++
  readFromFile .dstfd .qemuVmRestart ++
  [.print [.lit "asd123www: ", .buff, .lit "\n"],
    .assertStrcmp .qemuVmRestart,
    .clock .vmRestart] ++
  receive .dstfd .qemuPostCopyFinish ++
  [.clock .postCopyFinish,
    printSpan "vm downtime" .preCopyFinish .vmRestart,
    printSpan "post-copy duration" .vmRestart .postCopyFinish,
    printInstant "Migration start" .beforeMigrate,
    printInstant "Migration end" .postCopyFinish, .fflush]

/-- The `connect` that assigns a descriptor of the backup. -/
def dial : Fd → Instr
  | .dstfd => .connect .dstfd .dstIp .dstControlPort
  | fd => .connect fd .srcIp .srcControlPort

/-- What both backups print and do until they are connected. -/
def connectBoth (hello : String) : List Instr :=
  [printText hello,
    printAddr "src:  " .srcIp .srcControlPort,
    printAddr "dst:  " .dstIp .dstControlPort, .fflush] ++
  connectWrapper .srcfd .srcIp .srcControlPort ++ connectWrapper .dstfd .dstIp .dstControlPort

def qemuBackupMain : List Instr :=
  connectBoth "Hello from the backup!\n" ++ [.pidFile, .signal .usr1, .idle]

/-! ## Shared-memory mode -/

def signalHandlerShmSrcComplete : List Instr :=
  [.assertCount, printText "shm_src: VM image is complete!\n", .fflush,
    .write .connfd (.text .completeVmImage),
    .system .quitSrc]

def signalHandlerShmSrcPrecopy : List Instr :=
  [printText "shm_src: pre-copy has finished!\n", .fflush,
    .write .connfd (.text .shmPreCopyFinish),
    .setCount]

def shmSrcMain : List Instr :=
  [printText "Hello from the shm_source!\n", .pidFile, .signal .usr1, .signal .usr2,
    .system .removeSharedMemory,
    .spawn .srcBoot,
    printAddr "addr:  " .srcIp .srcControlPort] ++ listenWrapper .srcIp .srcControlPort ++
  receive .connfd .shmMigrate ++ [.system .shmMigrate] ++
  receive .connfd .shmMigrateSwitchover ++ [.system .shmMigrateSwitchover, .idle]

def signalHandlerShmDst : List Instr :=
  [.write .connfd (.text .switchoverFinished),
    .clock .end_,
    printSpan "\n\ndst load VM image durtion" .start .end_, .fflush]

def shmDstMain : List Instr :=
  [printText "Hello from the shm_destination!\n", .pidFile,
    printAddr "addr:  " .dstIp .dstControlPort] ++ listenWrapper .dstIp .dstControlPort ++
  [.signal .usr1] ++
  receive .connfd .startTargetVm ++
  [printText "Starting dest VM!\n", .fflush, .spawn .dstBoot] ++
  receive .connfd .shmLoadVmImage ++
  [.clock .start, .retry .migrateIncomingShm, .idle]

def signalHandlerShmBackup : List Instr :=
  [printText "backup: Received SIGUSR1 signal\n", .fflush,
    .print [.lit "The write-through duration is ", .int .writeThroughDuration 0, .lit "\n"],
    .write .srcfd (.text .shmMigrate),
    .sleep,
    .clock .beforeMigrate,
    .write .srcfd (.text .shmMigrateSwitchover),
    .sleep,
    .write .dstfd (.text .startTargetVm)] ++
  receive .srcfd .shmPreCopyFinish ++
  [.clock .preCopyFinish,
    printSpan "pre-copy duration" .beforeMigrate .preCopyFinish, .fflush] ++
  receive .srcfd .completeVmImage ++
  [.write .dstfd (.text .shmLoadVmImage)] ++
  receive .dstfd .switchoverFinished ++
  [.clock .vmRestart,
    printSpan "vm downtime" .preCopyFinish .vmRestart,
    printInstant "Migration start" .beforeMigrate,
    printInstant "Migration end" .vmRestart, .fflush]

def shmBackupMain : List Instr :=
  connectBoth "Hello from the shm_backup!\n" ++ [.pidFile, .signal .usr1, .idle]

/-! ## All parties -/

/-- The code of a party's threads; a signal that is never installed has none. -/
def code (mode : Mode) : Role → Option Signal → List Instr
  | .src, none => mainPrints mode .src ++ if mode.isShm then shmSrcMain else qemuSrcMain mode.flag
  | .src, some .usr1 => if mode.isShm then signalHandlerShmSrcComplete else signalHandlerSrc
  | .src, some .usr2 => if mode.isShm then signalHandlerShmSrcPrecopy else []
  | .dst, none => mainPrints mode .dst ++ if mode.isShm then shmDstMain else qemuDstMain mode.flag
  | .dst, some .usr1 => if mode.isShm then signalHandlerShmDst else signalHandlerDst1
  | .dst, some .usr2 => if mode.isShm then [] else signalHandlerDst2
  | .backup, none => mainPrints mode .backup ++ if mode.isShm then shmBackupMain else qemuBackupMain
  | .backup, some .usr1 => if mode.isShm then signalHandlerShmBackup else signalHandlerBackup
  | .backup, some .usr2 => []

/-- Globals are zero before `main`. -/
def Vars.zero : Vars := ⟨false, List.replicate DATA_LEN 0, [], fun _ => false, fun _ => 0⟩

/-- Locals before they are assigned; every use comes after an assignment. -/
def Locals.fresh : Locals := ⟨false, .qemuMigrate, 0⟩

def World.start : World :=
  ⟨fun _ => [], fun _ => none, fun _ => false, fun _ => [], fun _ => false, fun _ => [], 0⟩

/-- The three processes: mode and arguments of each. -/
def machine (mode : Role → Mode) (st : Role → Settings) :
    Machine Role Signal Instr Vars Locals World Env Data where
  code r o := code (mode r) r o
  exec r c i v l w := exec (st r) r c i v l w
  handles v s := decide (s ∈ v.installed)
  vars _ := Vars.zero
  locals := Locals.fresh
  drift c w := { w with now := w.now + c.k }

/-- An entry of the history. -/
abbrev Entry := Threads.Entry Role Signal Instr Data

/-- A scheduler's choice. -/
abbrev Choice := Threads.Choice Role Signal Env

/-- The system while it runs. -/
abbrev Net := State Role Signal Instr Vars Locals World Data

/-- Nothing has been executed. -/
def start (mode : Role → Mode) (st : Role → Settings) : Net := (machine mode st).start World.start

/-- Every schedule, every segmentation, every outcome of a system call or a command, every signal at
    any time. -/
def Anything (_ : Net) (_ : Choice) : Prop := True

/-! ## Playing a schedule -/

/-- The addresses of the `config.txt` of the repository; the arguments of the command line are left
    empty. -/
def Field.shipped : Field → String
  | .srcIp | .dstIp => "10.10.1.3"
  | .migrationPort => "4444"
  | .srcControlPort => "55555"
  | .dstControlPort => "56666"
  | _ => ""

def Settings.shipped : Settings := fun f =>
  ⟨ascii f.shipped, by cases f <;> decide, by cases f <;> decide⟩

example : Settings.shipped.addr .dstIp .dstControlPort = ⟨0x0A0A0103, 56666⟩ := by
  decide +kernel

/-- `n` instructions of `r` with whole reads, in which nothing fails. -/
def turns (n : Nat) (r : Role) : List Choice := List.replicate n (.run r ⟨DATA_LEN, true⟩)

/-- All parties in mode `md`, after the choices `cs`. -/
def played (md : Mode) (cs : List Choice) : Net :=
  cs.foldl (machine (fun _ => md) fun _ => Settings.shipped).step
    (start (fun _ => md) fun _ => Settings.shipped)

theorem reach_played (md : Mode) (cs : List Choice) :
    Runs.Reach (machine (fun _ => md) fun _ => Settings.shipped).step Anything
      (start (fun _ => md) fun _ => Settings.shipped) (played md cs) := by
  refine Runs.Reach.play .start ?_
  generalize start (fun _ => md) (fun _ => Settings.shipped) = σ
  induction cs generalizing σ with
  | nil => trivial
  | cons c cs ih => exact ⟨trivial, ih _⟩

/-- Source and destination start, the backup connects, and a migration takes its course. -/
def postcopyPlay : List Choice :=
  turns 20 .src ++ turns 22 .dst ++ turns 12 .backup ++ turns 1 .dst ++ turns 1 .src ++
    [.signal .backup .usr1] ++ turns 7 .backup ++ turns 8 .src ++
    [.drift ⟨3000, true⟩, .signal .src .usr1] ++ turns 4 .src ++ turns 7 .backup ++
    [.drift ⟨150, true⟩, .signal .dst .usr1] ++ turns 9 .dst ++ turns 6 .backup ++
    [.drift ⟨2000, true⟩, .signal .dst .usr2] ++ turns 9 .dst ++ turns 10 .backup

/-- The same in shared-memory mode. -/
def shmPlay : List Choice :=
  turns 16 .src ++ turns 11 .dst ++ turns 12 .backup ++ turns 2 .src ++ turns 3 .dst ++
    [.signal .backup .usr1] ++ turns 10 .backup ++ turns 9 .src ++ turns 7 .dst ++
    [.drift ⟨3000, true⟩, .signal .src .usr2] ++ turns 5 .src ++
    [.drift ⟨150, true⟩, .signal .src .usr1] ++ turns 6 .src ++ turns 12 .backup ++ turns 5 .dst ++
    [.drift ⟨2000, true⟩, .signal .dst .usr1] ++ turns 5 .dst ++ turns 9 .backup

end QemuStudy.Deployment
