import MosKernel.LineEditor
import MosKernel.Task

/-!
# The commands of the shell

`parse_and_run` of `shell.rs` and what it calls.  The shell runs while other tasks do, so a command is a
list of `Todo`s, each of them one access to what they share: a byte printed, a task looked up, a call of the
kernel.

The loop over `SYS_CMD_MAP` tests prefixes.  `dispatch_eq_some_iff` says what comes of it: the command whose
text is the first word of the line, and no other.  `nameStr_setUserName` says what `uname` makes of a name
that is too long.
-/

namespace MosKernel

open Utf8

/-! ### Texts -/

/-- `str::trim_start` -/
def trimStart (s : List Char) : List Char := s.dropWhile isWhitespace

/-- `{:>n}` -/
def padLeft (n : ℕ) (s : List Char) : List Char := List.replicate (n - s.length) ' ' ++ s

/-- `{:<n}` -/
def padRight (n : ℕ) (s : List Char) : List Char := s ++ List.replicate (n - s.length) ' '

/-- `{:0n}` of a number. -/
def padZero (n m : ℕ) : List Char :=
  let digits := Nat.toDigits 10 m
  List.replicate (n - digits.length) '0' ++ digits

/-- `fmt::Display` of `TaskStatus` -/
def TaskStatus.text : TaskStatus → String
  | .ready => "Ready"
  | .running => "Running"
  | .blocked => "Blocked"
  | .terminated => "Dead"

/-! ### Commands -/

/-- The callbacks of `SYS_CMD_MAP`. -/
inductive Callback
  | ls
  | kill
  | block
  | resume
  | help
  | time
  | uname
  | reboot
  deriving DecidableEq

/-- `Cmd` -/
structure Cmd where
  text : List Char
  callback : Callback

/-- `Cmd::try_match` -/
def Cmd.tryMatch (cmd : Cmd) (input : List Char) : Option (List Char) :=
  let input := trimStart input
  if cmd.text <+: input then
    let rest := input.drop cmd.text.length
    if rest = [] ∨ [' '] <+: rest then some (trimStart rest) else none
  else none

/-- `SYS_CMD_MAP` -/
def sysCmdMap : List Cmd :=
  [⟨"ls".toList, .ls⟩, ⟨"kill".toList, .kill⟩, ⟨"block".toList, .block⟩, ⟨"resume".toList, .resume⟩,
    ⟨"help".toList, .help⟩, ⟨"time".toList, .time⟩, ⟨"uname".toList, .uname⟩, ⟨"reboot".toList, .reboot⟩]

/-- The loop of `parse_and_run`: the first command that matches, with its argument. -/
def dispatch (line : List Char) : Option (Callback × List Char) :=
  sysCmdMap.findSome? fun cmd => (cmd.tryMatch line).map fun argv => (cmd.callback, argv)

/-- The commands that act on a task. -/
inductive Ctrl
  | kill
  | block
  | resume
  deriving DecidableEq

namespace Ctrl

def callback : Ctrl → Callback
  | kill => .kill
  | block => .block
  | resume => .resume

/-- What the message says. -/
def done : Ctrl → String
  | kill => "terminated"
  | block => "blocked"
  | resume => "resumed"

/-- What is called. -/
def call : Ctrl → Tid → TaskCall
  | kill, tid => .terminate tid
  | block, tid => .block tid
  | resume, tid => .resume tid

end Ctrl

/-- What the shell has still to do: print a byte, begin a command, announce what it does to a task it has
found, do it, print a row of `ls`, reboot. -/
inductive Todo
  | putchar (c : UInt8)
  | run (callback : Callback) (argv : List Char)
  | announce (ctrl : Ctrl) (tid : Tid)
  | call (ctrl : Ctrl) (tid : Tid)
  | row (tid : Tid)
  | reboot
  deriving DecidableEq

/-- `lprint!` of a text. -/
def lprint (s : List Char) : List Todo := (encode s).map .putchar

/-- `lprintln!` of a text. -/
def lprintln (s : List Char) : List Todo := lprint s ++ lprint ['\n']

/-- `parse_and_run` -/
def parseAndRun (line : List Char) : List Todo :=
  lprintln ("> ".toList ++ line) ++
    if trim line = [] then []
    else
      match dispatch line with
      | some (callback, argv) => [.run callback argv]
      | none => lprintln ("[MOS] Unknown command '".toList ++ trim line ++ "'".toList)

/-! ### What the callbacks do -/

/-- `SYSTICK_HZ` -/
abbrev systickHz : ℕ := 1000

/-- The percentage in a row of `ls`, from `stack_bottom` and `sp`. -/
def stackPercent (stackBottom sp : BitVec 32) : ℕ :=
  let stackTop := min (stackBottom.toNat + pageSizeWords * 4) (2 ^ 32 - 1)
  let usedWords := (stackTop - sp.toNat) / 4
  min (usedWords * 100 % 2 ^ 32 / pageSizeWords) 100

/-- The body of the loop of `ls_cmd`, with what `stack_bottom` and `sp` hold. -/
def lsRow (k : Kernel) (stackBottom sp : BitVec 32) (tid : Tid) : List Todo :=
  let tcb := k.tcbs tid
  if tcb.status = .terminated then []
  else
    lprintln (padLeft 3 (Nat.toDigits 10 tid.val) ++ [' '] ++ padRight 10 tcb.name.toList ++ [' '] ++
      padLeft 3 (Nat.toDigits 10 tcb.priority) ++ [' '] ++ padLeft 8 tcb.status.text.toList ++ [' '] ++
      padLeft 4 (Nat.toDigits 10 (stackPercent stackBottom sp)) ++ ['%'])

/-- `ls_cmd` -/
def lsCmd : List Todo :=
  lprintln (padLeft 3 "ID".toList ++ [' '] ++ padRight 10 "Name".toList ++ [' '] ++ padLeft 3 "PRI".toList ++
      [' '] ++ padLeft 8 "Status".toList ++ [' '] ++ padLeft 5 "Stack".toList) ++
    lprintln "--- ---------- --- -------- -----".toList ++
    (List.finRange taskMax).map .row ++ lprintln "----------------------------------".toList

/-- `task_ctrl_cmd` up to the call of `ok`, which begins with `.announce`. -/
def taskCtrlCmd (k : Kernel) (ctrl : Ctrl) (argv : List Char) : List Todo :=
  let name := trim argv
  if name = [] then lprintln "[MOS] Invalid Arguments".toList
  else
    match k.findTid (String.ofList name) with
    | some tid => [.announce ctrl tid]
    | none => lprintln ("[MOS] Unknown task '".toList ++ name ++ "'".toList)

/-- The message of a control command. -/
def announcement (k : Kernel) (ctrl : Ctrl) (tid : Tid) : List Todo :=
  lprintln ("[MOS] Task '".toList ++ (k.tcbs tid).name.toList ++ "' ".toList ++ ctrl.done.toList)

/-- `help_cmd` -/
def helpCmd : List Todo :=
  (sysCmdMap.flatMap fun cmd => lprint (cmd.text ++ ", ".toList)) ++ lprint ['\n']

/-- `time_cmd` -/
def timeCmd (osTicks : BitVec 32) : List Todo :=
  let upSecs := osTicks.toNat / systickHz
  lprintln ("========= Uptime: ".toList ++ padZero 2 (upSecs / 3600) ++ [':'] ++
    padZero 2 (upSecs % 3600 / 60) ++ [':'] ++ padZero 2 (upSecs % 60) ++ " =========".toList)

/-- `USER_NAME_SIZE` -/
abbrev userNameSize : ℕ := 8

/-- `MOS_USER_NAME` -/
def mosUserName : List Char := "neo".toList

/-- `MOS_VERSION` -/
def mosVersion : List Char := "v0.5(esp32c6_rust)".toList

/-- `MOS_ARCH` -/
def mosArch : List Char := "RISC-V (rv32imac)".toList

/-- `MOS_MCU` -/
def mosMcu : List Char := "ESP32-C6".toList

/-- `USER_NAME` at the start. -/
def userName₀ : List UInt8 := encode mosUserName ++ List.replicate 5 0

/-- The writes of `uname_cmd` to `USER_NAME`. -/
def setUserName (newName : List Char) : List UInt8 :=
  let bytes := encode newName
  let copyLen := min bytes.length (userNameSize - 1)
  bytes.take copyLen ++ List.replicate (userNameSize - copyLen) 0

/-- `str::trim_end_matches`, for the NUL character. -/
def trimEndNul (s : List Char) : List Char := (s.reverse.dropWhile fun c => c.toNat = 0).reverse

/-- `name_str` of `uname_cmd` -/
def nameStr (userName : List UInt8) : List Char :=
  trimEndNul ((decode userName).getD mosUserName)

/-- The banner of `uname_cmd`. -/
def banner (userName : List UInt8) : List Todo :=
  lprintln (" A_A       _  [".toList ++ nameStr userName ++ "] @ ".toList ++ mosVersion) ++
    lprintln ("o'' )_____//  Arch  @ ".toList ++ mosArch) ++
    lprintln (" `_/  MOS  )  Chip  @ ".toList ++ mosMcu) ++
    lprintln " (_(_/--(_/   2023-2026 Copyright by Eplankton".toList

/-- `uname_cmd`: `USER_NAME` after it, and what it prints. -/
def unameCmd (userName : List UInt8) (argv : List Char) : List UInt8 × List Todo :=
  let newName := trim argv
  if newName = [] then (userName, banner userName)
  else
    (setUserName newName,
      lprintln ("[MOS] User Name => ".toList ++ newName) ++ banner (setUserName newName))

/-- The callback of a command: `USER_NAME` after it, and what is to be done. -/
def Callback.start (k : Kernel) (userName : List UInt8) (argv : List Char) :
    Callback → List UInt8 × List Todo
  | ls => (userName, lsCmd)
  | kill => (userName, taskCtrlCmd k .kill argv)
  | block => (userName, taskCtrlCmd k .block argv)
  | resume => (userName, taskCtrlCmd k .resume argv)
  | help => (userName, helpCmd)
  | time => (userName, timeCmd k.osTicks)
  | uname => unameCmd userName argv
  | reboot => (userName, lprintln "[MOS] Reboot!".toList ++ [.reboot])

/-! ### Which command a line runs -/

/-- The first word of a line, up to a space. -/
def firstWord (line : List Char) : List Char := (trimStart line).takeWhile (· ≠ ' ')

/-- What stands behind the first word. -/
def argument (line : List Char) : List Char := trimStart ((trimStart line).dropWhile (· ≠ ' '))

section Dispatch

variable {line argv : List Char} {callback : Callback}

/-- A prefix that a space or the end follows is the first word. -/
theorem Cmd.tryMatch_eq {cmd : Cmd} (htext : ∀ c ∈ cmd.text, c ≠ ' ') (line : List Char) :
    cmd.tryMatch line = if firstWord line = cmd.text then some (argument line) else none := by
  rw [tryMatch, firstWord, argument]
  dsimp only
  generalize trimStart line = input
  have hplain : ∀ c ∈ cmd.text, decide (c ≠ ' ') = true := fun c hc => decide_eq_true (htext c hc)
  by_cases hpre : cmd.text <+: input
  · obtain ⟨rest, rfl⟩ := hpre
    rw [if_pos (List.prefix_append _ _), List.drop_left, List.takeWhile_append_of_pos hplain,
      List.dropWhile_append_of_pos hplain]
    cases rest with
    | nil => simp
    | cons c rest =>
        by_cases hc : c = ' '
        · simp [hc]
        · have hne : ' ' ≠ c := fun h => hc h.symm
          simp [hc, hne]
  · rw [if_neg hpre, if_neg]
    rintro heq
    exact hpre (heq ▸ List.takeWhile_prefix _)

/-- **The command of the first word**, if there is one, is what the loop finds. -/
theorem findSome?_tryMatch {cmds : List Cmd} (htext : ∀ cmd ∈ cmds, ∀ c ∈ cmd.text, c ≠ ' ')
    (line : List Char) :
    (cmds.findSome? fun cmd => (cmd.tryMatch line).map fun argv => (cmd.callback, argv)) =
      (cmds.find? fun cmd => firstWord line = cmd.text).map fun cmd => (cmd.callback, argument line) := by
  induction cmds with
  | nil => rfl
  | cons cmd cmds ih =>
      rw [List.forall_mem_cons] at htext
      rw [List.findSome?_cons, List.find?_cons, Cmd.tryMatch_eq htext.1]
      by_cases hword : firstWord line = cmd.text
      · simp [hword]
      · simp only [hword, if_false, decide_false, Option.map_none]
        exact ih htext.2

theorem sysCmdMap_plain : ∀ cmd ∈ sysCmdMap, ∀ c ∈ cmd.text, c ≠ ' ' := by
  have hall : (sysCmdMap.all fun cmd => cmd.text.all fun c => decide (c ≠ ' ')) = true := by decide
  intro cmd hcmd c hc
  exact of_decide_eq_true (List.all_eq_true.mp (List.all_eq_true.mp hall cmd hcmd) c hc)

theorem sysCmdMap_texts : (sysCmdMap.map Cmd.text).Nodup := by decide

/-- **Dispatch.**  A line runs a command exactly when its first word is the text of that command, whatever the
order of the table, and the argument is what stands behind the word. -/
theorem dispatch_eq_some_iff : dispatch line = some (callback, argv) ↔
    (∃ cmd ∈ sysCmdMap, cmd.text = firstWord line ∧ cmd.callback = callback) ∧ argv = argument line := by
  rw [dispatch, findSome?_tryMatch sysCmdMap_plain, Option.map_eq_some_iff]
  constructor
  · rintro ⟨cmd, hfind, heq⟩
    cases heq
    have hword : firstWord line = cmd.text := by simpa using List.find?_some hfind
    exact ⟨⟨cmd, List.mem_of_find?_eq_some hfind, hword.symm, rfl⟩, rfl⟩
  · rintro ⟨⟨cmd, hmem, hword, rfl⟩, rfl⟩
    obtain ⟨cmd', hfind⟩ : ∃ cmd', (sysCmdMap.find? fun cmd => firstWord line = cmd.text) = some cmd' :=
      Option.isSome_iff_exists.mp (List.find?_isSome.mpr ⟨cmd, hmem, by simp [hword]⟩)
    have hword' : firstWord line = cmd'.text := by simpa using List.find?_some hfind
    have heq := List.inj_on_of_nodup_map sysCmdMap_texts (List.mem_of_find?_eq_some hfind) hmem
      (hword'.symm.trans hword.symm)
    exact ⟨cmd', hfind, by rw [heq]⟩

end Dispatch

/-! ### The user name -/

section UserName

theorem dropWhile_replicate_append {α : Type} {p : α → Bool} {x : α} (hx : p x = true) (n : ℕ) (l : List α) :
    (List.replicate n x ++ l).dropWhile p = l.dropWhile p :=
  List.dropWhile_append_of_pos fun _ hy => by rw [List.eq_of_mem_replicate hy, hx]

theorem encode_replicate_nul (n : ℕ) : encode (List.replicate n (Char.ofNat 0)) = List.replicate n 0 := by
  induction n with
  | zero => rfl
  | succ n ih =>
      rw [List.replicate_succ, List.replicate_succ, ← ih]
      rfl

theorem trimEndNul_append (s : List Char) (n : ℕ) :
    trimEndNul (s ++ List.replicate n (Char.ofNat 0)) = trimEndNul s := by
  rw [trimEndNul, List.reverse_append, List.reverse_replicate, dropWhile_replicate_append (by decide)]
  rfl

/-- **The name that `uname` shows** after it was set: the characters that fit into 7 bytes, if they fill
them or are all, and the default name where the cut goes through a character. -/
theorem nameStr_setUserName (newName : List Char) : nameStr (setUserName newName) =
    if (encode (fitting (userNameSize - 1) newName)).length = min (userNameSize - 1) (encode newName).length
    then trimEndNul (fitting (userNameSize - 1) newName) else mosUserName := by
  have htake : ∀ l : List UInt8, l.take (min l.length (userNameSize - 1)) = l.take (userNameSize - 1) :=
    fun l => by rw [Nat.min_comm, ← List.take_take, List.take_length]
  have hascii : ∀ n, ∀ c ∈ List.replicate n (Char.ofNat 0), c.utf8Size = 1 := fun n c hc => by
    rw [List.eq_of_mem_replicate hc]
    rfl
  rw [nameStr, setUserName, htake, ← encode_replicate_nul, decode_take _ _ _ (hascii _)]
  split_ifs
  · exact trimEndNul_append _ _
  · rfl

end UserName

end MosKernel
