/-
  The controller from `main` on: instructions, formats, sockets, clocks.

  `Controller.Process` starts when the connections exist.  Here a party starts with its process: it
  writes its pid file, installs handlers, boots its VM, talks to the QEMU monitor through the shell,
  and listens or connects, and each of these can fail or be interrupted.  The functions of
  `apps/controller.c` are cut into instructions that execute in one step:

  * `listen_wrapper` and `connect_wrapper` are `socket`, `bind`, `listen`, `accept` and `socket`,
    `connect`;
  * `read_from_file` is `memset`, `read`, `assertLen`, and the `strcmp` its callers assert;
  * `if (!sigusr1_count) { .. }` is `testCount` and one instruction per statement in the block;
  * every shell command is a `Command`, and every text that `printf` or `sprintf` produces is a
    `Format`, rendered from the arguments of the process, its buffer and its clock readings.

  Who is connected to whom follows from the addresses in the configuration: `bind` and `connect`
  convert them as `inet_addr` and `htons(atoi(..))` do, and a connection reaches whoever listens at
  an address that answers, which need not be the party the backup means.

  `exec` is what an instruction does to the globals, to the locals of its thread and to the world
  outside: byte streams, sockets, pid files, standard output and the time.
-/
import QemuStudy.Controller.Config
import QemuStudy.Controller.Net
import QemuStudy.Lib.Text
import QemuStudy.Lib.Threads

namespace QemuStudy.Deployment

open QemuStudy.Controller (Role Signal Fd Msg End Buff readSome memset store cstr ascii
  IP_LEN PORT_LEN DATA_LEN)
open QemuStudy.Threads (Outcome)

/-! ## Arguments -/

/-- The string buffers that `main` fills from `config.txt` and from the command line, as far as the
    parties use them. -/
inductive Field
  | srcIp
  | dstIp
  | migrationPort
  | srcControlPort
  | dstControlPort
  | maxBandwidth
  | benchScript
  | cpuNum
  | memorySize
  | outputFile
  | duration
  | writeThroughDuration
  deriving DecidableEq, Repr

/-- `sizeof` the buffer. -/
def Field.size : Field → Nat
  | .srcIp | .dstIp => IP_LEN
  | .migrationPort | .srcControlPort | .dstControlPort => PORT_LEN
  | _ => 256

/-- A C string in a buffer of `n` bytes. -/
structure CStr (n : Nat) where
  bytes : List UInt8
  no_nul : 0 ∉ bytes
  fits : bytes.length < n

/-- What a process has been given. -/
abbrev Settings := (f : Field) → CStr f.size

def isSpaceByte (b : UInt8) : Bool := b = 32 || (9 ≤ b && b ≤ 13)

def isDigitByte (b : UInt8) : Bool := 48 ≤ b && b ≤ 57

/-- The digits at the front, as a number. -/
def digitsValue (s : List UInt8) : Nat :=
  (s.takeWhile isDigitByte).foldl (fun n b => 10 * n + (b.toNat - 48)) 0

/-- `strtol(s, NULL, 10)`: blanks, a sign, digits; a `long` that saturates. -/
def strtol (s : List UInt8) : Int :=
  match s.dropWhile isSpaceByte with
  | 45 :: t => max (-(digitsValue t : Int)) (-2 ^ 63)
  | 43 :: t => min (digitsValue t : Int) (2 ^ 63 - 1)
  | t => min (digitsValue t : Int) (2 ^ 63 - 1)

/-- `atoi(s)`, which is `(int) strtol(s, NULL, 10)`. -/
def atoi (s : List UInt8) : Int32 := Int32.ofInt (strtol s)

/-! ## Addresses -/

/-- What a byte is worth as a digit, 36 if it is none. -/
def digitValue (b : UInt8) : Nat :=
  if isDigitByte b then b.toNat - 48
  else if 97 ≤ b && b ≤ 122 then b.toNat - 87
  else if 65 ≤ b && b ≤ 90 then b.toNat - 55
  else 36

/-- `strtoul(s, &rest, 0)` on a text that starts with a digit: `0x` is followed by hexadecimal
    digits, `0` by octal ones. -/
def strtoul (s : List UInt8) : Nat × List UInt8 :=
  let (base, digits) := match s with
    | 48 :: x :: d :: t =>
      if (x = 120 || x = 88) && digitValue d < 16 then (16, d :: t) else (8, s)
    | 48 :: _ => (8, s)
    | _ => (10, s)
  ((digits.takeWhile (digitValue · < base)).foldl (fun n b => base * n + digitValue b) 0,
    digits.dropWhile (digitValue · < base))

/-- The numbers between the dots, of which at most `dots` may follow; behind the last one there is
    nothing or a blank. -/
def inetParts (dots : Nat) (s : List UInt8) : Option (List Nat) :=
  if s.head?.any isDigitByte then
    match strtoul s with
    | (part, []) => some [part]
    | (part, b :: rest) =>
      if b = 46 then
        match dots with
        | 0 => none
        | dots + 1 => if part ≤ 255 then (inetParts dots rest).map (part :: ·) else none
      else if isSpaceByte b then some [part]
      else none
  else none

/-- `inet_addr(s)`, in the order of its parts: the last one fills the bytes that are left, and what
    is no address is 255.255.255.255. -/
def inetAddr (s : List UInt8) : Nat :=
  match inetParts 3 s with
  | none => 2 ^ 32 - 1
  | some parts =>
    if parts.getLastD 0 < 256 ^ (5 - parts.length) then
      parts.dropLast.foldr (fun part n => part * 2 ^ 24 + n / 256) 0 + parts.getLastD 0
    else 2 ^ 32 - 1

/-- What `bind` and `connect` are given. -/
structure Addr where
  ip : Nat
  port : Nat
  deriving DecidableEq, Repr

/-- `inet_addr(ip)` and `htons(atoi(port))`. -/
def Settings.addr (st : Settings) (ip port : Field) : Addr :=
  ⟨inetAddr (st ip).bytes, ((atoi (st port).bytes).toInt % 2 ^ 16).toNat⟩

/-- May a connection to `asked` reach a socket that is bound to `bound`?  One that is bound to
    0.0.0.0 takes connections to any address of its machine, port 0 lets the system choose the port,
    and 0.0.0.0 is asked of the own machine. -/
def Addr.answers (bound asked : Addr) : Bool :=
  (bound.port = asked.port || bound.port = 0) &&
    (bound.ip = asked.ip || bound.ip = 0 || asked.ip = 0)

/-! ## Formats -/

/-- The `struct timespec` variables: four locals of the backup's handlers, and the globals `start`
    and `end`. -/
inductive Clock
  | beforeMigrate
  | preCopyFinish
  | vmRestart
  | postCopyFinish
  | start
  | end_
  deriving DecidableEq, Repr

inductive Piece
  | lit (text : String)
  /-- `%s` of a buffer -/
  | str (f : Field)
  /-- `%d` of `atoi(f) + k` -/
  | int (f : Field) (k : Nat)
  /-- `%lld` of `c.tv_sec * 1000000000LL + c.tv_nsec` -/
  | instant (c : Clock)
  /-- `%lld` of the difference of two such values -/
  | span (from_ to_ : Clock)
  /-- `%s` of `buff` -/
  | buff
  deriving DecidableEq, Repr

abbrev Format := List Piece

/-- The two VMs. -/
inductive Side
  | src
  | dst
  deriving DecidableEq, Repr

def Side.text : Side → String
  | .src => "src"
  | .dst => "dst"

/-- The shell commands. -/
inductive Command
  | srcBoot
  | dstBoot
  | maxBandwidth (side : Side)
  | downtimeLimit
  | postcopyRam (side : Side)
  | postcopyPreempt (side : Side)
  | migrate
  | startPostcopy
  | migrateIncoming
  | pinVmToCores (side : Side)
  | removeSharedMemory
  | shmMigrate
  | shmMigrateSwitchover
  | migrateIncomingShm
  | quitSrc
  deriving DecidableEq, Repr

/-- `echo "…" | sudo socat stdio unix-connect:qemu-monitor-migration-…` -/
def monitor (side : Side) (fmt : Format) : Format :=
  [.lit "echo \""] ++ fmt ++
    [.lit "\" | sudo socat stdio unix-connect:qemu-monitor-migration-", .lit side.text]

def Command.format : Command → Format
  | .srcBoot => [.lit "sudo bash scripts/src_boot.sh ", .str .benchScript, .lit " ", .str .cpuNum,
      .lit " ", .str .memorySize, .lit " > ", .str .outputFile]
  | .dstBoot => [.lit "sudo bash scripts/dst_boot.sh ", .str .cpuNum, .lit " ", .str .memorySize,
      .lit " > ", .str .outputFile]
  | .maxBandwidth side =>
      monitor side [.lit "migrate_set_parameter max-bandwidth ", .str .maxBandwidth]
  | .downtimeLimit => monitor .src [.lit "migrate_set_parameter downtime-limit 150"]
  | .postcopyRam side => monitor side [.lit "migrate_set_capability postcopy-ram on"]
  | .postcopyPreempt side => monitor side [.lit "migrate_set_capability postcopy-preempt on"]
  | .migrate => monitor .src [.lit "migrate -d tcp:", .str .dstIp, .lit ":", .str .migrationPort]
  | .startPostcopy => monitor .src [.lit "migrate_start_postcopy"]
  | .migrateIncoming =>
      monitor .dst [.lit "migrate_incoming tcp:", .str .dstIp, .lit ":", .str .migrationPort]
  | .pinVmToCores side => [.lit "sudo bash scripts/pin_vm_to_cores.sh ", .lit side.text]
  | .removeSharedMemory => [.lit "sudo rm /dev/shm/my_shared_memory"]
  | .shmMigrate => monitor .src [.lit "shm_migrate /my_shared_memory ", .int .memorySize 1,
      .lit " ", .str .duration]
  | .shmMigrateSwitchover => monitor .src [.lit "shm_migrate_switchover"]
  | .migrateIncomingShm =>
      monitor .dst [.lit "migrate_incoming_shm /my_shared_memory ", .int .memorySize 1]
  | .quitSrc => monitor .src [.lit "q"]

/-! ## Instructions -/

/-- The argument of `write_to_file`: a literal, or what `choose` has picked. -/
inductive Arg
  | text (m : Msg)
  | chosen
  deriving DecidableEq, Repr

inductive Instr
  /-- `printf`, `puts` -/
  | print (fmt : Format)
  | fflush
  /-- `sleep`, `usleep` -/
  | sleep
  /-- `clock_gettime(CLOCK_MONOTONIC, &c)` -/
  | clock (c : Clock)
  /-- the pid file, if it can be opened -/
  | pidFile
  /-- `if (signal(s, handler) == SIG_ERR) exit(-1)` -/
  | signal (s : Signal)
  /-- `execute_wrapper(cmd)`, its result ignored -/
  | system (cmd : Command)
  /-- `execute_wrapper_process(cmd)` -/
  | spawn (cmd : Command)
  /-- `while (1) { int ret = execute_wrapper(cmd); if (!ret) break; }` -/
  | retry (cmd : Command)
  /-- `assert(execute_wrapper(cmd) == 0)` -/
  | check (cmd : Command)
  | socket
  | bind (ip port : Field)
  | listen
  | accept
  | connect (fd : Fd) (ip port : Field)
  /-- `!sigusr1_count ? clear : set` -/
  | choose (clear set : Msg)
  /-- `write_to_file(fd, arg)` -/
  | write (fd : Fd) (arg : Arg)
  /-- `memset(buff, 0, sizeof(m) + 1)` -/
  | memset (m : Msg)
  /-- the loop around `read(fd, buff, sizeof(m) - 1)` -/
  | read (fd : Fd) (m : Msg)
  /-- `assert(read_len == sizeof(m) - 1)` -/
  | assertLen (m : Msg)
  /-- `assert(strcmp(buff, m) == 0)` -/
  | assertStrcmp (m : Msg)
  /-- `assert(sigusr1_count)` -/
  | assertCount
  /-- `sigusr1_count = 1` -/
  | setCount
  /-- `if (!sigusr1_count)` -/
  | testCount
  /-- `usleep(1000)` in the block after it -/
  | sleepIfClear
  /-- `execute_wrapper(cmd)` in the block after it -/
  | systemIfClear (cmd : Command)
  /-- `while (1) { fflush(stdout); sleep(1); }` -/
  | idle
  deriving DecidableEq, Repr

/-- `read_from_file(fd, sizeof(m), buff)`. -/
def readFromFile (fd : Fd) (m : Msg) : List Instr := [.memset m, .read fd m, .assertLen m]

/-- `read_from_file(fd, sizeof(m), buff); assert(strcmp(buff, m) == 0)`. -/
def receive (fd : Fd) (m : Msg) : List Instr := readFromFile fd m ++ [.assertStrcmp m]

/-- `connfd = listen_wrapper(ip, port)`. -/
def listenWrapper (ip port : Field) : List Instr := [.socket, .bind ip port, .listen, .accept]

/-- `fd = connect_wrapper(ip, port)`. -/
def connectWrapper (fd : Fd) (ip port : Field) : List Instr := [.socket, .connect fd ip port]

/-! ## One instruction -/

/-- The globals of a process. -/
structure Vars where
  count : Bool
  buff : Buff
  installed : List Signal
  /-- the descriptors that have been assigned -/
  fds : Fd → Bool
  stamp : Clock → Nat

/-- The locals of a thread: the condition of its last `if`, the argument it has evaluated, and
    `read_len`. -/
structure Locals where
  skip : Bool
  arg : Msg
  readLen : Nat

/-- Everything the parties share. -/
structure World where
  /-- bytes on their way to an end -/
  inbox : End → List UInt8
  /-- what a party's socket is bound to -/
  bound : Role → Option Addr
  /-- who has called `listen` -/
  listening : Role → Bool
  /-- the descriptors of the backup that are connected to a party's socket, oldest first -/
  calls : Role → List Fd
  pid : Role → Bool
  /-- standard output -/
  out : Role → List UInt8
  /-- nanoseconds of the monotonic clock -/
  now : Nat

/-- Does party `r` listen for connections to `asked`? -/
def World.listensAt (w : World) (asked : Addr) (r : Role) : Bool :=
  w.listening r && (w.bound r).any (·.answers asked)

/-- Who gets a connection to `asked`: a party that listens there, of several the one the network
    picks.  Nobody but the parties uses the control ports. -/
def World.answering (w : World) (k : Nat) (asked : Addr) : Option Role :=
  let found := [Role.src, .dst].filter (w.listensAt asked)
  found[k % found.length]?

/-- The other side of a connection.  A party calls `accept` once and gets the oldest connection to
    its socket; the ones behind it stay in the backlog, and nobody reads from them. -/
def World.other (w : World) : End → Option End
  | (.backup, fd) =>
    if (w.calls .src).head? = some fd then some (.src, .connfd)
    else if (w.calls .dst).head? = some fd then some (.dst, .connfd)
    else none
  | (r, .connfd) => (w.calls r).head?.map (.backup, ·)
  | _ => none

/-- Bytes written at end `e`. -/
def World.send (w : World) (e : End) (bytes : List UInt8) : World :=
  match w.other e with
  | some e' => { w with inbox := Function.update w.inbox e' (w.inbox e' ++ bytes) }
  | none => w

/-- `n` bytes have left end `e`. -/
def World.take (w : World) (e : End) (n : Nat) : World :=
  { w with inbox := Function.update w.inbox e ((w.inbox e).drop n) }

def World.print (w : World) (r : Role) (text : List UInt8) : World :=
  { w with out := Function.update w.out r (w.out r ++ text) }

/-- What the environment decides in one step: how many bytes a `read` may return (or who gets a
    connection, or how much time passes), and whether a system call or a command succeeds. -/
structure Env where
  k : Nat
  ok : Bool
  deriving DecidableEq

/-- What is recorded with an instruction: when it was done, the bytes it sent, took or printed, and
    whether there was anything to do. -/
structure Data where
  time : Nat
  bytes : List UInt8
  ran : Bool
  deriving DecidableEq, Repr

def World.note (w : World) : Data := ⟨w.now, [], true⟩

def showInt (v : Int) : List UInt8 :=
  (if v < 0 then [45] else []) ++ (Text.decimal v.natAbs).map fun c => c.toNat.toUInt8

def Piece.render (st : Settings) (v : Vars) : Piece → List UInt8
  | .lit text => ascii text
  | .str f => (st f).bytes
  | .int f k => showInt (atoi (st f).bytes + Int32.ofNat k).toInt
  | .instant c => showInt (v.stamp c)
  | .span a b => showInt ((v.stamp b : Int) - v.stamp a)
  | .buff => cstr v.buff

def render (st : Settings) (v : Vars) (fmt : Format) : List UInt8 :=
  fmt.flatMap (Piece.render st v)

def Arg.eval (l : Locals) : Arg → Msg
  | .text m => m
  | .chosen => l.arg

/-- One instruction of party `r`. -/
def exec (st : Settings) (r : Role) (c : Env) : Instr → Vars → Locals → World →
    Outcome Vars Locals World Data
  | .print fmt, v, l, w =>
    .done v l (w.print r (render st v fmt)) ⟨w.now, render st v fmt, true⟩
  | .fflush, v, l, w => .done v l w w.note
  | .sleep, v, l, w => .done v l w w.note
  | .clock x, v, l, w =>
    .done { v with stamp := Function.update v.stamp x w.now } l w w.note
  | .pidFile, v, l, w =>
    .done v l { w with pid := Function.update w.pid r (w.pid r || c.ok) } w.note
  | .signal s, v, l, w =>
    if c.ok then .done { v with installed := s :: v.installed } l w w.note else .stop
  | .system _, v, l, w => .done v l w w.note
  | .spawn _, v, l, w => if c.ok then .done v l w w.note else .stop
  | .retry _, v, l, w => if c.ok then .done v l w w.note else .again
  | .check _, v, l, w => if c.ok then .done v l w w.note else .stop
  | .socket, v, l, w => if c.ok then .done v l w w.note else .stop
  -- it may fail for any reason, for instance because the address is in use
  | .bind ip port, v, l, w =>
    if c.ok then
      .done v l { w with bound := Function.update w.bound r (some (st.addr ip port)) } w.note
    else .stop
  | .listen, v, l, w =>
    if c.ok then
      .done v l { w with listening := Function.update w.listening r true } w.note
    else .stop
  -- `accept` blocks until somebody has connected
  | .accept, v, l, w =>
    if w.calls r = [] then .again
    else if c.ok then .done { v with fds := Function.update v.fds .connfd true } l w w.note
    else .stop
  -- it succeeds before the connection is accepted; if nobody listens there, it fails
  | .connect fd ip port, v, l, w =>
    match w.answering c.k (st.addr ip port) with
    | some r' =>
      if c.ok then
        .done { v with fds := Function.update v.fds fd true } l
          { w with calls := Function.update w.calls r' (w.calls r' ++ [fd]) } w.note
      else .stop
    | none => .stop
  | .choose clear set, v, l, w =>
    .done v { l with arg := if v.count then set else clear } w w.note
  -- a descriptor that is not assigned yet is 0: the bytes go to standard input, not to the peer
  | .write fd arg, v, l, w =>
    if c.ok = false then .stop
    else if v.fds fd then
      .done v l (w.send (r, fd) (arg.eval l).bytes) ⟨w.now, (arg.eval l).bytes, true⟩
    else .done v l w w.note
  | .memset m, v, l, w =>
    .done { v with buff := QemuStudy.Controller.memset (m.sizeof + 1) v.buff } l w w.note
  -- an error gives `read_len == (uint32_t) -1`, which ends the loop and fails the assert after it
  | .read fd m, v, l, w =>
    if c.ok = false then .stop
    else
      let chunk := readSome c.k (m.sizeof - 1) (w.inbox (r, fd))
      if chunk = [] then .again
      else .done { v with buff := store chunk v.buff } { l with readLen := chunk.length }
        (w.take (r, fd) chunk.length) ⟨w.now, chunk, true⟩
  | .assertLen m, v, l, w =>
    if l.readLen = m.sizeof - 1 then .done v l w w.note else .stop
  | .assertStrcmp m, v, l, w =>
    if cstr v.buff = m.bytes then .done v l w w.note else .stop
  | .assertCount, v, l, w => if v.count then .done v l w w.note else .stop
  | .setCount, v, l, w => .done { v with count := true } l w w.note
  | .testCount, v, l, w => .done v { l with skip := v.count } w w.note
  | .sleepIfClear, v, l, w => .done v l w ⟨w.now, [], !l.skip⟩
  | .systemIfClear _, v, l, w => .done v l w ⟨w.now, [], !l.skip⟩
  | .idle, _, _, _ => .again

end QemuStudy.Deployment
