import MosKernel.LcdOutput
import MosKernel.Names
import MosKernel.Shell
import MosKernel.ShellInput

/-!
# The console

The shell between the BLE task, which writes its input, the LCD task, which shows its output, and all the
tasks that go on while it works.  A step of the shell is one access to what it shares with them, so what a
command has looked up may be out of date when it acts on it.

Two results hold in every run, whatever the order of the steps.  Writes that are short enough and find room
are run as commands one by one, in order, and none is lost (`writes_become_lines`).  And a command that acts
on a task has looked it up under the name that was typed, so it acts on a task of that name unless the task
has died since (`controls_the_named_task`); if it has, the command can hit another one, as the last example
shows.
-/

namespace MosKernel

open Transition Utf8

/-- The shell and what it shares: the kernel, its input ring, its line editor, `USER_NAME`, what it has
still to do, and the output.  The other fields only record: `writes` the data of all BLE writes, and `lines`
the lines that `parse_and_run` has been called with. -/
structure Console where
  kernel : Kernel
  input : InputRing UInt8
  editor : LineEditor
  userName : List UInt8
  todo : List Todo
  out : LcdOutput
  writes : List (List UInt8)
  lines : List (List Char)

/-- What happens: a BLE write, a step of the shell, a step of the LCD task, a byte that another task prints,
or any other operation on the kernel.  `stack` is what `stack_bottom` and `sp` of the control blocks hold
then. -/
inductive ConsoleEvent
  | write (data : List UInt8)
  | shell (stack : Tid → BitVec 32 × BitVec 32)
  | lcd
  | putchar (c : UInt8)
  | other (a : TaskAction)

namespace Console

variable {text : DrawText} {s s' : Console} {a : ConsoleEvent} {tr : List (Console × ConsoleEvent)}
  {k : Kernel} {ctrl : Ctrl} {tid : Tid}

/-- `launch` of the shell before its loop, on a running kernel. -/
def start (k : Kernel) (panel : Panel) : Console where
  kernel := k
  input := .new 0
  editor := .new
  userName := userName₀
  todo := [.run .uname [], .run .ls []]
  out := .start panel
  writes := []
  lines := []

/-- The loop of `launch` takes a byte, or sleeps if there is none. -/
def poll (s : Console) : Option Console :=
  match s.input.pop with
  | (none, _) => ((TaskCall.delay 10).exec s.kernel).map fun r => { s with kernel := r.1 }
  | (some c, input) =>
      let editor := (s.editor.feed c).1
      match (s.editor.feed c).2 with
      | none => some { s with input, editor }
      | some line => some { s with input, editor, todo := parseAndRun line, lines := s.lines ++ [line] }

/-- A step of the shell: the next thing that a command has to do, or a look for the next byte. -/
def shell (stack : Tid → BitVec 32 × BitVec 32) (s : Console) : Option Console :=
  match s.todo with
  | [] => s.poll
  | .putchar c :: todo => some { s with out := s.out.putchar c, todo }
  | .run callback argv :: todo =>
      let (userName, begun) := callback.start s.kernel s.userName argv
      some { s with userName, todo := begun ++ todo }
  | .announce ctrl tid :: todo =>
      some { s with todo := announcement s.kernel ctrl tid ++ .call ctrl tid :: todo }
  | .call ctrl tid :: todo => ((ctrl.call tid).exec s.kernel).map fun r => { s with kernel := r.1, todo }
  | .row tid :: todo => some { s with todo := lsRow s.kernel (stack tid).1 (stack tid).2 tid ++ todo }
  | .reboot :: _ => none

def step (text : DrawText) (s : Console) : ConsoleEvent → Option Console
  | .write data => some { s with input := s.input.pushInput data 0x0A, writes := s.writes ++ [data] }
  | .shell stack => s.shell stack
  | .lcd => (s.out.step text .lcd).map fun out => { s with out }
  | .putchar c => some { s with out := s.out.putchar c }
  | .other a => (a.step s.kernel).map fun kernel => { s with kernel }

/-! ### From writes to lines -/

/-- The line that a write makes. -/
def lineOf (data : List UInt8) : List Char := trim ((decode data).getD [])

/-- A write is a text without control characters that fits a line, and the ring has room for it and its
newline. -/
def Deliverable (s : Console) : ConsoleEvent → Prop
  | .write data => (∃ line, data = encode line ∧ ∀ c ∈ line, (Key.type c).Printable) ∧
      data.length ≤ shellBufSize - 1 ∧ s.input.len + data.length < inputBufSize
  | _ => True

/-- The first writes have become lines; the others lie in the line editor and in the ring, whole. -/
structure Delivering (s : Console) : Prop where
  ring : s.input.Sound
  plain : ∀ b ∈ s.editor.line, b ≠ 0x0A
  lines : ∃ done rest : List (List Char), s.writes = (done ++ rest).map encode ∧ s.lines = done.map trim ∧
    s.editor.line ++ s.input.contents = rest.flatMap (fun line => encode line ++ [0x0A]) ∧
    ∀ line ∈ rest, (∀ c ∈ line, (Key.type c).Printable) ∧ (encode line).length ≤ shellBufSize - 1

theorem delivering_start (k : Kernel) (panel : Panel) : (start k panel).Delivering where
  ring := .empty _
  plain := by simp [start, LineEditor.new, LineEditor.line]
  lines := ⟨[], [], rfl, rfl, rfl, by simp⟩

/-- The bytes of a line without control characters. -/
theorem encode_printable {line : List Char} (h : ∀ c ∈ line, (Key.type c).Printable) {b : UInt8}
    (hb : b ∈ encode line) : 0x20 ≤ b ∧ b ≠ 0x7F := by
  obtain ⟨c, hc, hb⟩ := List.mem_flatMap.mp hb
  exact LineEditor.printable_bytes (h c hc) b hb

theorem Delivering.write (h : s.Delivering) {data : List UInt8} (hok : s.Deliverable (.write data)) :
    Delivering { s with input := s.input.pushInput data 0x0A, writes := s.writes ++ [data] } := by
  obtain ⟨⟨line, rfl, hline⟩, hlen, hroom⟩ := hok
  obtain ⟨hsound, -, hcontents⟩ := InputRing.pushInput_spec h.ring (encode line) 0x0A
  obtain ⟨done, rest, hwrites, hlines, hstream, hrest⟩ := h.lines
  have hall : (encode line ++ [0x0A]).take (inputBufSize - s.input.len) = encode line ++ [0x0A] := by
    rw [List.take_of_length_le]
    rw [List.length_append, List.length_singleton]
    omega
  rw [hall] at hcontents
  refine ⟨hsound, h.plain, done, rest ++ [line], ?_, hlines, ?_, ?_⟩
  · show s.writes ++ [encode line] = _
    have hconcat : (done ++ rest ++ [line]).map encode = (done ++ rest).map encode ++ [encode line] := by
      rw [List.map_append]
      rfl
    rw [hwrites, ← List.append_assoc, hconcat]
  · show s.editor.line ++ (s.input.pushInput (encode line) 0x0A).contents = _
    rw [hcontents, ← List.append_assoc, hstream, List.flatMap_append, List.flatMap_singleton]
  · intro l hl
    rcases List.mem_append.mp hl with hl | hl
    · exact hrest l hl
    · rw [List.mem_singleton.mp hl]
      exact ⟨hline, hlen⟩

/-- What is in the editor is the beginning of the line that is due, and the next byte goes on with it. -/
theorem Delivering.next (h : s.Delivering) {c : UInt8} {contents : List UInt8}
    (hc : s.input.contents = c :: contents) :
    ∃ done line rest, s.writes = (done ++ line :: rest).map encode ∧ s.lines = done.map trim ∧
      (∀ l ∈ line :: rest, (∀ c ∈ l, (Key.type c).Printable) ∧ (encode l).length ≤ shellBufSize - 1) ∧
      ((encode line = s.editor.line ∧ c = 0x0A ∧ contents = rest.flatMap fun l => encode l ++ [0x0A]) ∨
        ∃ more, encode line = s.editor.line ++ c :: more ∧
          contents = more ++ ([0x0A] ++ rest.flatMap fun l => encode l ++ [0x0A])) := by
  obtain ⟨done, rest, hwrites, hlines, hstream, hrest⟩ := h.lines
  rw [hc] at hstream
  cases rest with
  | nil =>
      rw [List.flatMap_nil] at hstream
      exact absurd hstream (by simp)
  | cons line rest =>
      refine ⟨done, line, rest, hwrites, hlines, hrest, ?_⟩
      rw [List.flatMap_cons, List.append_assoc] at hstream
      rcases List.append_eq_append_iff.mp hstream with ⟨more, hmore, htail⟩ | ⟨excess, hexcess, htail⟩
      · cases more with
        | nil =>
            rw [List.append_nil] at hmore
            obtain ⟨rfl, hcontents⟩ := List.cons_eq_cons.mp htail
            exact .inl ⟨hmore, rfl, hcontents⟩
        | cons b more =>
            obtain ⟨rfl, hcontents⟩ := List.cons_eq_cons.mp htail
            exact .inr ⟨more, hmore, hcontents⟩
      · -- the editor holds no newline, so it cannot be past the line
        cases excess with
        | nil =>
            rw [List.append_nil] at hexcess
            obtain ⟨rfl, hcontents⟩ := List.cons_eq_cons.mp htail
            exact .inl ⟨hexcess.symm, rfl, hcontents.symm⟩
        | cons b excess =>
            obtain ⟨rfl, -⟩ := List.cons_eq_cons.mp htail
            exact absurd rfl (h.plain 0x0A (by rw [hexcess]; simp))

/-- **A byte** of a line goes to the editor, and the newline calls `parse_and_run` with the line. -/
theorem Delivering.feed (h : s.Delivering) {input : InputRing UInt8} {c : UInt8} {contents : List UInt8}
    (hc : s.input.contents = c :: contents) (hsound : input.Sound) (hinput : input.contents = contents)
    (todo : List Todo) :
    Delivering { s with
      input
      editor := (s.editor.feed c).1
      todo
      lines := s.lines ++ (s.editor.feed c).2.toList } := by
  obtain ⟨done, line, rest, hwrites, hlines, hrest, hcase⟩ := h.next hc
  obtain ⟨hline, hlater⟩ := List.forall_mem_cons.mp hrest
  rcases hcase with ⟨hwhole, rfl, hcontents⟩ | ⟨more, hmore, hcontents⟩
  · -- the line is complete
    obtain ⟨hlen, hcall⟩ := LineEditor.feed_newline (e := s.editor)
    have hempty : (s.editor.feed 0x0A).1.line = [] :=
      List.length_eq_zero_iff.mp ((LineEditor.length_line _).trans hlen)
    refine ⟨hsound, by rw [hempty]; simp, done ++ [line], rest, ?_, ?_, ?_, hlater⟩
    · rw [hwrites, List.append_assoc]
      rfl
    · show s.lines ++ (s.editor.feed 0x0A).2.toList = _
      rw [hcall, ← hwhole, decode_encode, hlines, List.map_append]
      rfl
    · show (s.editor.feed 0x0A).1.line ++ input.contents = _
      rw [hempty, hinput, hcontents, List.nil_append]
  · -- the byte is one of the line, and there is room for it
    have hbytes : ∀ b ∈ s.editor.line ++ c :: more, 0x20 ≤ b ∧ b ≠ 0x7F := fun b hb =>
      encode_printable hline.1 (hmore ▸ hb)
    have hcb := hbytes c (by simp)
    have hroom : s.editor.len < shellBufSize - 1 := by
      have hle := hline.2
      rw [hmore, List.length_append, LineEditor.length_line, List.length_cons] at hle
      omega
    obtain ⟨hfed, hcall⟩ := LineEditor.feed_printable hcb.1 hcb.2 hroom
    refine ⟨hsound, ?_, done, line :: rest, hwrites, ?_, ?_, hrest⟩
    · show ∀ b ∈ (s.editor.feed c).1.line, b ≠ 0x0A
      rw [hfed]
      intro b hb
      have hprint := (hbytes b (by
        rcases List.mem_append.mp hb with hb | hb
        · exact List.mem_append_left _ hb
        · rw [List.mem_singleton.mp hb]
          simp)).1
      rintro rfl
      exact absurd hprint (by decide)
    · show s.lines ++ (s.editor.feed c).2.toList = _
      rw [hcall, hlines]
      exact List.append_nil _
    · show (s.editor.feed c).1.line ++ input.contents = _
      rw [hfed, hinput, hcontents, List.flatMap_cons, hmore]
      simp only [List.append_assoc, List.cons_append, List.nil_append]

/-- Nothing else touches the lines. -/
theorem Delivering.congr (h : s.Delivering) (hi : s'.input = s.input) (he : s'.editor = s.editor)
    (hw : s'.writes = s.writes) (hl : s'.lines = s.lines) : s'.Delivering := by
  obtain ⟨hring, hplain, hlines⟩ := h
  exact ⟨hi ▸ hring, he ▸ hplain, by rw [hw, hl, he, hi]; exact hlines⟩

theorem Delivering.poll (h : s.Delivering) (hs : s.poll = some s') : s'.Delivering := by
  rw [Console.poll] at hs
  rcases InputRing.pop_spec h.ring with ⟨-, hpop⟩ | ⟨input, hpop, hsound, -, hcontents⟩
  · rw [hpop] at hs
    obtain ⟨r, -, rfl⟩ := Option.map_eq_some_iff.mp hs
    exact h.congr rfl rfl rfl rfl
  · rw [hpop] at hs
    dsimp only at hs
    cases hcall : (s.editor.feed (s.input.buf s.input.head)).2 with
    | none =>
        rw [hcall] at hs
        cases hs
        have hfed := h.feed hcontents hsound rfl s.todo
        rw [hcall] at hfed
        exact hfed.congr rfl rfl rfl (List.append_nil _).symm
    | some line =>
        rw [hcall] at hs
        cases hs
        have hfed := h.feed hcontents hsound rfl (parseAndRun line)
        rw [hcall] at hfed
        exact hfed

theorem Delivering.step (h : s.Delivering) (hok : s.Deliverable a) (hs : s.step text a = some s') :
    s'.Delivering := by
  cases a with
  | write data =>
      cases hs
      exact h.write hok
  | shell stack =>
      rw [Console.step, Console.shell] at hs
      split at hs
      · exact h.poll hs
      · cases hs
        exact h.congr rfl rfl rfl rfl
      · cases hs
        exact h.congr rfl rfl rfl rfl
      · cases hs
        exact h.congr rfl rfl rfl rfl
      · obtain ⟨r, -, rfl⟩ := Option.map_eq_some_iff.mp hs
        exact h.congr rfl rfl rfl rfl
      · cases hs
        exact h.congr rfl rfl rfl rfl
      · cases hs
  | lcd =>
      obtain ⟨out, -, rfl⟩ := Option.map_eq_some_iff.mp hs
      exact h.congr rfl rfl rfl rfl
  | putchar c =>
      cases hs
      exact h.congr rfl rfl rfl rfl
  | other a =>
      obtain ⟨k, -, rfl⟩ := Option.map_eq_some_iff.mp hs
      exact h.congr rfl rfl rfl rfl

/-- **Writes become lines.**  In every run in which each BLE write is a text without control characters,
short enough for a line, and finds room in the ring: `parse_and_run` has been called with the texts of the
first writes, trimmed, each once and in order, and with all of them when the ring is empty. -/
theorem writes_become_lines {panel : Panel} (hr : Run (step text) Deliverable (start k panel) tr s) :
    s.lines = (s.writes.take s.lines.length).map lineOf ∧
      (s.input.len = 0 → s.lines.length = s.writes.length) := by
  have h : s.Delivering := hr.invariant (delivering_start k panel) fun _ _ _ h hok hs => h.step hok hs
  obtain ⟨done, rest, hwrites, hlines, hstream, -⟩ := h.lines
  have hlen : s.lines.length = done.length := by
    rw [hlines, List.length_map]
  constructor
  · have htake : ((done ++ rest).map encode).take done.length = done.map encode := by
      rw [List.map_append, List.take_left' (List.length_map _)]
    rw [hlen, hwrites, htake, List.map_map, hlines]
    refine List.map_congr_left fun line _ => ?_
    show trim line = trim ((decode (encode line)).getD [])
    rw [decode_encode]
    rfl
  · intro hempty
    have hnil : s.input.contents = [] :=
      List.length_eq_zero_iff.mp ((InputRing.length_contents _).trans hempty)
    rw [hnil, List.append_nil] at hstream
    cases rest with
    | nil => rw [hlen, hwrites, List.append_nil, List.length_map]
    | cons line rest =>
        exact absurd rfl (h.plain 0x0A (by rw [hstream, List.flatMap_cons]; simp))

/-- A control block whose stack fields hold nothing yet. -/
def noStack : Tid → BitVec 32 × BitVec 32 := fun _ => (0, 0)

/-- Nothing is drawn. -/
def blank : DrawText := fun _ _ => []

/-- `Deliverable`, evaluated. -/
def deliverable (s : Console) : ConsoleEvent → Bool
  | .write data => (decode data).any (fun line => line.all fun c => decide (Key.type c).Printable) &&
      decide (data.length ≤ shellBufSize - 1 ∧ s.input.len + data.length < inputBufSize)
  | _ => true

theorem deliverable_of_check (s : Console) (a : ConsoleEvent) (h : s.deliverable a = true) :
    s.Deliverable a := by
  cases a with
  | write data =>
      rw [deliverable, Bool.and_eq_true] at h
      obtain ⟨line, hline, hall⟩ := (Option.any_eq_true _ _).mp h.1
      refine ⟨⟨line, decode_eq_some hline, fun c hc => ?_⟩, of_decide_eq_true h.2⟩
      exact of_decide_eq_true (List.all_eq_true.mp hall c hc)
  | shell stack => trivial
  | lcd => trivial
  | putchar c => trivial
  | other a => trivial

/-- The shell starts, and two lines are written while it prints. -/
theorem writes_become_lines_run : ∃ tr s,
    Run (step blank) Deliverable (start Kernel.boot fun _ => black) tr s ∧
    s.lines = [['l', 's'], ['t']] ∧ s.lines = (s.writes.take s.lines.length).map lineOf := by
  have hexec : (exec (step blank) deliverable (start Kernel.boot fun _ => black)
      (.write [0x6C, 0x73] :: List.replicate 160 (.shell noStack) ++
        .write [0x20, 0x74] :: List.replicate 251 (.shell noStack))).any
      (fun s => decide (s.lines = [['l', 's'], ['t']])) = true := by decide +kernel
  obtain ⟨tr, s, hr, hs⟩ := exists_run_of_exec deliverable_of_check hexec
  exact ⟨tr, s, hr, of_decide_eq_true hs, (writes_become_lines hr).1⟩

/-! ### What a command acts on -/

/-- The tasks that the shell has found and is about to act on. -/
def targets (todo : List Todo) : List (Ctrl × Tid) :=
  todo.filterMap fun
    | .announce ctrl tid => some (ctrl, tid)
    | .call ctrl tid => some (ctrl, tid)
    | _ => none

/-- A control command looks its task up. -/
structure LooksUp (e : Console × ConsoleEvent) (ctrl : Ctrl) (name : String) (tid : Tid) : Prop where
  shell : ∃ stack, e.2 = .shell stack
  typed : ∃ argv todo, e.1.todo = .run ctrl.callback argv :: todo ∧ name = String.ofList (trim argv)
  found : e.1.kernel.findTid name = some tid

/-- The shell begins a command. -/
def Begins (e : Console × ConsoleEvent) : Prop :=
  (∃ stack, e.2 = .shell stack) ∧ ∃ callback argv todo, e.1.todo = .run callback argv :: todo

/-- The command in progress, the last one that has begun, has looked the task up, and unless the task has died
since, it has the name that was typed. -/
def Found (tr : List (Console × ConsoleEvent)) (s : Console) (ctrl : Ctrl) (tid : Tid) : Prop :=
  ∃ newer e older name, tr = newer ++ e :: older ∧ LooksUp e ctrl name tid ∧ (∀ e' ∈ newer, ¬Begins e') ∧
    ((∀ e' ∈ newer, e'.1.kernel.status tid ≠ .terminated) → (s.kernel.tcbs tid).name = name)

@[simp] theorem targets_nil : targets [] = [] := rfl

@[simp] theorem targets_append (l l' : List Todo) : targets (l ++ l') = targets l ++ targets l' :=
  List.filterMap_append

@[simp] theorem targets_lprint (l : List Char) : targets (lprint l) = [] := by
  rw [targets, lprint, List.filterMap_map, List.filterMap_eq_nil_iff]
  intro b _
  rfl

@[simp] theorem targets_lprintln (l : List Char) : targets (lprintln l) = [] := by
  rw [lprintln, targets_append, targets_lprint, targets_lprint]
  rfl

theorem targets_parseAndRun (line : List Char) : targets (parseAndRun line) = [] := by
  rw [parseAndRun, targets_append, targets_lprintln, List.nil_append]
  split_ifs
  · rfl
  · split
    · rfl
    · exact targets_lprintln _

theorem targets_lsRow (k : Kernel) (stackBottom sp : BitVec 32) (tid : Tid) :
    targets (lsRow k stackBottom sp tid) = [] := by
  rw [lsRow]
  split_ifs
  · rfl
  · exact targets_lprintln _

theorem targets_lsCmd : targets lsCmd = [] := by
  rw [lsCmd, targets_append, targets_append, targets_append, targets_lprintln, targets_lprintln,
    targets_lprintln, List.nil_append, List.nil_append, List.append_nil, targets, List.filterMap_map,
    List.filterMap_eq_nil_iff]
  intro t _
  rfl

theorem targets_helpCmd : targets helpCmd = [] := by
  have hall : ∀ cmds : List Cmd, targets (cmds.flatMap fun cmd => lprint (cmd.text ++ ", ".toList)) = [] := by
    intro cmds
    induction cmds with
    | nil => rfl
    | cons cmd cmds ih => rw [List.flatMap_cons, targets_append, targets_lprint, ih]; rfl
  rw [helpCmd, targets_append, hall, targets_lprint]
  rfl

theorem targets_banner (userName : List UInt8) : targets (banner userName) = [] := by
  simp [banner]

theorem targets_unameCmd (userName : List UInt8) (argv : List Char) :
    targets (unameCmd userName argv).2 = [] := by
  rw [unameCmd]
  split_ifs
  · exact targets_banner _
  · rw [targets_append, targets_lprintln, targets_banner]
    rfl

theorem targets_rebootCmd : targets (lprintln "[MOS] Reboot!".toList ++ [.reboot]) = [] := by
  rw [targets_append, targets_lprintln]
  rfl

/-- A control command has a target if it finds its task. -/
theorem mem_targets_taskCtrlCmd {x : Ctrl × Tid} {argv : List Char}
    (hx : x ∈ targets (taskCtrlCmd k ctrl argv)) :
    x.1 = ctrl ∧ k.findTid (String.ofList (trim argv)) = some x.2 := by
  rw [taskCtrlCmd] at hx
  split_ifs at hx
  · rw [targets_lprintln] at hx
    exact absurd hx List.not_mem_nil
  · split at hx
    · rename_i tid hfind
      obtain rfl := List.mem_singleton.mp hx
      exact ⟨rfl, hfind⟩
    · rw [targets_lprintln] at hx
      exact absurd hx List.not_mem_nil

/-- Only the control commands have targets. -/
theorem mem_targets_start {x : Ctrl × Tid} {callback : Callback} {userName : List UInt8} {argv : List Char}
    (hx : x ∈ targets (callback.start k userName argv).2) :
    callback = x.1.callback ∧ k.findTid (String.ofList (trim argv)) = some x.2 := by
  cases callback with
  | ls => exact absurd (targets_lsCmd ▸ hx) List.not_mem_nil
  | kill =>
      obtain ⟨hctrl, hfind⟩ := mem_targets_taskCtrlCmd hx
      exact ⟨by rw [hctrl]; rfl, hfind⟩
  | block =>
      obtain ⟨hctrl, hfind⟩ := mem_targets_taskCtrlCmd hx
      exact ⟨by rw [hctrl]; rfl, hfind⟩
  | resume =>
      obtain ⟨hctrl, hfind⟩ := mem_targets_taskCtrlCmd hx
      exact ⟨by rw [hctrl]; rfl, hfind⟩
  | help => exact absurd (targets_helpCmd ▸ hx) List.not_mem_nil
  | time => exact absurd (targets_lprintln _ ▸ hx) List.not_mem_nil
  | uname => exact absurd (targets_unameCmd userName argv ▸ hx) List.not_mem_nil
  | reboot =>
      exact absurd (targets_rebootCmd ▸ hx) List.not_mem_nil

/-- What has not begun comes last: there are no targets behind a command that has not begun. -/
def TargetsFirst : List Todo → Prop
  | [] => True
  | .run _ _ :: todo => targets todo = []
  | _ :: todo => TargetsFirst todo

theorem targetsFirst_of_targets_eq_nil {l : List Todo} (h : targets l = []) : TargetsFirst l := by
  induction l with
  | nil => trivial
  | cons x l ih =>
      cases x with
      | announce ctrl tid => cases h
      | call ctrl tid => cases h
      | run callback argv => exact h
      | putchar c => exact ih h
      | row tid => exact ih h
      | reboot => exact ih h

/-- A command that begins goes before what has not begun. -/
theorem TargetsFirst.append {l r : List Todo} (hl : TargetsFirst l) (hr : targets r = []) :
    TargetsFirst (l ++ r) := by
  induction l with
  | nil => exact targetsFirst_of_targets_eq_nil hr
  | cons x l ih =>
      cases x with
      | run callback argv =>
          have hnil : targets l = [] := hl
          show targets (l ++ r) = []
          rw [targets_append, hnil, hr]
          rfl
      | putchar c => exact ih hl
      | announce ctrl tid => exact ih hl
      | call ctrl tid => exact ih hl
      | row tid => exact ih hl
      | reboot => exact ih hl

theorem targetsFirst_lprint (l : List Char) (r : List Todo) :
    TargetsFirst (lprint l ++ r) ↔ TargetsFirst r := by
  have hall : ∀ bytes : List UInt8, TargetsFirst (bytes.map .putchar ++ r) ↔ TargetsFirst r := by
    intro bytes
    induction bytes with
    | nil => exact Iff.rfl
    | cons b bytes ih => exact ih
  exact hall _

theorem targetsFirst_lprintln (l : List Char) (r : List Todo) :
    TargetsFirst (lprintln l ++ r) ↔ TargetsFirst r := by
  rw [lprintln, List.append_assoc, targetsFirst_lprint, targetsFirst_lprint]

theorem TargetsFirst.announcement {r : List Todo} (h : TargetsFirst r) (k : Kernel) (ctrl : Ctrl)
    (tid : Tid) : TargetsFirst (announcement k ctrl tid ++ r) := by
  rw [MosKernel.announcement, targetsFirst_lprintln]
  exact h

theorem TargetsFirst.lsRow {r : List Todo} (h : TargetsFirst r) (k : Kernel) (stackBottom sp : BitVec 32)
    (tid : Tid) : TargetsFirst (lsRow k stackBottom sp tid ++ r) := by
  rw [MosKernel.lsRow]
  split_ifs
  · exact h
  · rw [targetsFirst_lprintln]
    exact h

theorem targetsFirst_taskCtrlCmd (k : Kernel) (ctrl : Ctrl) (argv : List Char) :
    TargetsFirst (taskCtrlCmd k ctrl argv) := by
  rw [taskCtrlCmd]
  split_ifs
  · exact targetsFirst_of_targets_eq_nil (targets_lprintln _)
  · split
    · trivial
    · exact targetsFirst_of_targets_eq_nil (targets_lprintln _)

theorem targetsFirst_start (callback : Callback) (k : Kernel) (userName : List UInt8) (argv : List Char) :
    TargetsFirst (callback.start k userName argv).2 := by
  cases callback with
  | kill => exact targetsFirst_taskCtrlCmd k .kill argv
  | block => exact targetsFirst_taskCtrlCmd k .block argv
  | resume => exact targetsFirst_taskCtrlCmd k .resume argv
  | ls => exact targetsFirst_of_targets_eq_nil targets_lsCmd
  | help => exact targetsFirst_of_targets_eq_nil targets_helpCmd
  | time => exact targetsFirst_of_targets_eq_nil (targets_lprintln _)
  | uname => exact targetsFirst_of_targets_eq_nil (targets_unameCmd userName argv)
  | reboot => exact targetsFirst_of_targets_eq_nil targets_rebootCmd

/-- **The order of what is to be done** along a step. -/
theorem TargetsFirst.step (h : TargetsFirst s.todo) (hs : s.step text a = some s') :
    TargetsFirst s'.todo := by
  cases a with
  | write data =>
      cases hs
      exact h
  | shell stack =>
      rw [Console.step, Console.shell] at hs
      split at hs
      · rw [poll] at hs
        split at hs
        · obtain ⟨r, -, rfl⟩ := Option.map_eq_some_iff.mp hs
          exact h
        · dsimp only at hs
          split at hs
          · cases hs
            exact h
          · cases hs
            exact targetsFirst_of_targets_eq_nil (targets_parseAndRun _)
      · rename_i htodo
        cases hs
        rw [htodo] at h
        exact h
      · rename_i callback argv todo htodo
        cases hs
        rw [htodo] at h
        exact (targetsFirst_start callback s.kernel s.userName argv).append h
      · rename_i ctrl tid todo htodo
        cases hs
        rw [htodo] at h
        have hcall : TargetsFirst (.call ctrl tid :: todo) := h
        exact hcall.announcement s.kernel ctrl tid
      · rename_i ctrl tid todo htodo
        obtain ⟨r, -, rfl⟩ := Option.map_eq_some_iff.mp hs
        rw [htodo] at h
        exact h
      · rename_i tid todo htodo
        cases hs
        rw [htodo] at h
        have hrest : TargetsFirst todo := h
        exact hrest.lsRow s.kernel (stack tid).1 (stack tid).2 tid
      · cases hs
  | lcd =>
      obtain ⟨out, -, rfl⟩ := Option.map_eq_some_iff.mp hs
      exact h
  | putchar c =>
      cases hs
      exact h
  | other a =>
      obtain ⟨k, -, rfl⟩ := Option.map_eq_some_iff.mp hs
      exact h

/-- Only a step of the shell begins a command. -/
theorem not_begins_of_event (ha : ∀ stack, a ≠ .shell stack) : ¬Begins (s, a) := by
  rintro ⟨⟨stack, heq⟩, -⟩
  exact ha stack heq

theorem not_begins_of_todo (htodo : ∀ callback argv todo, s.todo ≠ .run callback argv :: todo) :
    ¬Begins (s, a) := by
  rintro ⟨-, callback, argv, todo, heq⟩
  exact htodo callback argv todo heq

/-- **Where a target comes from**: it was one before and no command begins, or it has just been looked up. -/
theorem mem_targets_step {x : Ctrl × Tid} (h : TargetsFirst s.todo) (hs : s.step text a = some s')
    (hx : x ∈ targets s'.todo) :
    (x ∈ targets s.todo ∧ ¬Begins (s, a)) ∨ ∃ name, LooksUp (s, a) x.1 name x.2 := by
  cases a with
  | write data =>
      cases hs
      exact .inl ⟨hx, not_begins_of_event (by simp)⟩
  | shell stack =>
      rw [Console.step, Console.shell] at hs
      split at hs
      · rename_i htodo
        have hno : ¬Begins (s, .shell stack) := not_begins_of_todo (by simp [htodo])
        rw [poll] at hs
        split at hs
        · obtain ⟨r, -, rfl⟩ := Option.map_eq_some_iff.mp hs
          exact .inl ⟨hx, hno⟩
        · dsimp only at hs
          split at hs
          · cases hs
            exact .inl ⟨hx, hno⟩
          · cases hs
            rw [targets_parseAndRun] at hx
            exact absurd hx List.not_mem_nil
      · rename_i htodo
        have hno : ¬Begins (s, .shell stack) := not_begins_of_todo (by simp [htodo])
        cases hs
        rw [htodo]
        exact .inl ⟨hx, hno⟩
      · rename_i callback argv todo htodo
        cases hs
        rw [htodo] at h
        have hbehind : targets todo = [] := h
        rw [targets_append, hbehind, List.append_nil] at hx
        obtain ⟨rfl, hfind⟩ := mem_targets_start hx
        exact .inr ⟨_, ⟨stack, rfl⟩, ⟨argv, todo, htodo, rfl⟩, hfind⟩
      · rename_i ctrl tid todo htodo
        have hno : ¬Begins (s, .shell stack) := not_begins_of_todo (by simp [htodo])
        cases hs
        rw [targets_append, announcement, targets_lprintln, List.nil_append] at hx
        rw [htodo]
        exact .inl ⟨hx, hno⟩
      · rename_i ctrl tid todo htodo
        have hno : ¬Begins (s, .shell stack) := not_begins_of_todo (by simp [htodo])
        obtain ⟨r, -, rfl⟩ := Option.map_eq_some_iff.mp hs
        rw [htodo]
        exact .inl ⟨List.mem_cons_of_mem _ hx, hno⟩
      · rename_i tid todo htodo
        have hno : ¬Begins (s, .shell stack) := not_begins_of_todo (by simp [htodo])
        cases hs
        rw [targets_append, targets_lsRow, List.nil_append] at hx
        rw [htodo]
        exact .inl ⟨hx, hno⟩
      · cases hs
  | lcd =>
      obtain ⟨out, -, rfl⟩ := Option.map_eq_some_iff.mp hs
      exact .inl ⟨hx, not_begins_of_event (by simp)⟩
  | putchar c =>
      cases hs
      exact .inl ⟨hx, not_begins_of_event (by simp)⟩
  | other a =>
      obtain ⟨k, -, rfl⟩ := Option.map_eq_some_iff.mp hs
      exact .inl ⟨hx, not_begins_of_event (by simp)⟩

/-- **The kernel's part of a step** is an operation of the kernel, or none. -/
theorem step_kernel (hs : s.step text a = some s') :
    s'.kernel = s.kernel ∨ ∃ b : TaskAction, b.step s.kernel = some s'.kernel := by
  have hcall : ∀ {c : TaskCall} {f : Kernel × Option Tid → Console}, (∀ r, (f r).kernel = r.1) →
      (c.exec s.kernel).map f = some s' → ∃ b : TaskAction, b.step s.kernel = some s'.kernel := by
    intro c f hf hs
    obtain ⟨r, hr, rfl⟩ := Option.map_eq_some_iff.mp hs
    refine ⟨.call c, ?_⟩
    rw [TaskAction.step, hr, hf]
    rfl
  cases a with
  | write data =>
      cases hs
      exact .inl rfl
  | shell stack =>
      rw [step, Console.shell] at hs
      split at hs
      · rw [poll] at hs
        split at hs
        · exact .inr (hcall (fun _ => rfl) hs)
        · dsimp only at hs
          split at hs
          · cases hs
            exact .inl rfl
          · cases hs
            exact .inl rfl
      · cases hs
        exact .inl rfl
      · cases hs
        exact .inl rfl
      · cases hs
        exact .inl rfl
      · exact .inr (hcall (fun _ => rfl) hs)
      · cases hs
        exact .inl rfl
      · cases hs
  | lcd =>
      obtain ⟨out, -, rfl⟩ := Option.map_eq_some_iff.mp hs
      exact .inl rfl
  | putchar c =>
      cases hs
      exact .inl rfl
  | other a =>
      obtain ⟨k, hk, rfl⟩ := Option.map_eq_some_iff.mp hs
      exact .inr ⟨a, hk⟩

/-- A step leaves the kernel in order, and the names of living tasks alone. -/
theorem step_listed (h : Listed s.kernel) (hs : s.step text a = some s') : Listed s'.kernel ∧
    ∀ t, s.kernel.status t ≠ .terminated → (s'.kernel.tcbs t).name = (s.kernel.tcbs t).name := by
  rcases step_kernel hs with heq | ⟨b, hb⟩
  · rw [heq]
    exact ⟨h, fun _ _ => rfl⟩
  · obtain ⟨c, hc⟩ := h.settled
    exact ⟨b.step_listed h hb, fun t ht => b.step_name hc.toCoherent hb ht⟩

theorem findTid_eq_some {name : String} (h : k.findTid name = some tid) :
    k.status tid ≠ .terminated ∧ (k.tcbs tid).name = name := by
  simpa using List.find?_some h

/-- One more step after the lookup. -/
theorem Found.next (h : Listed s.kernel) (hf : Found tr s ctrl tid) (hno : ¬Begins (s, a))
    (hs : s.step text a = some s') : Found ((s, a) :: tr) s' ctrl tid := by
  obtain ⟨newer, e, older, name, rfl, hlook, hlast, hname⟩ := hf
  refine ⟨(s, a) :: newer, e, older, name, rfl, hlook, List.forall_mem_cons.mpr ⟨hno, hlast⟩,
    fun halive => ?_⟩
  rw [List.forall_mem_cons] at halive
  exact ((step_listed h hs).2 tid halive.1).trans (hname halive.2)

theorem LooksUp.toFound {name : String} (h : Listed s.kernel) (hlook : LooksUp (s, a) ctrl name tid)
    (hs : s.step text a = some s') : Found ((s, a) :: tr) s' ctrl tid := by
  obtain ⟨halive, hname⟩ := findTid_eq_some hlook.found
  refine ⟨[], (s, a), tr, name, rfl, hlook, ?_, fun _ => ((step_listed h hs).2 tid halive).trans hname⟩
  intro e he
  cases he

theorem found_of_run {panel : Panel} (h₀ : Listed k)
    (hr : Run (step text) (fun _ _ => True) (start k panel) tr s) :
    (Listed s.kernel ∧ TargetsFirst s.todo) ∧ ∀ x ∈ targets s.todo, Found tr s x.1 x.2 := by
  induction hr with
  | start => exact ⟨⟨h₀, rfl⟩, fun x hx => absurd hx List.not_mem_nil⟩
  | next _ _ hs ih =>
      obtain ⟨⟨h, hfirst⟩, hfound⟩ := ih
      refine ⟨⟨(step_listed h hs).1, hfirst.step hs⟩, fun x hx => ?_⟩
      rcases mem_targets_step hfirst hs hx with ⟨hx, hno⟩ | ⟨name, hlook⟩
      · exact (hfound x hx).next h hno hs
      · exact hlook.toFound h hs

/-- **What a control command acts on.**  After any creations and the launch, in every run, however the steps
of the shell interleave with everything else: where the shell is about to terminate, block or resume a task,
the command in progress, the last one that has begun, has looked this task up under the name that was typed
with it, and the task still has this name, unless it has died since. -/
theorem controls_the_named_task {boots : List BootCall} {panel : Panel} {todo : List Todo}
    (hl : Kernel.launchAfter boots = some k)
    (hr : Run (step text) (fun _ _ => True) (start k panel) tr s) (hcall : s.todo = .call ctrl tid :: todo) :
    Found tr s ctrl tid := by
  obtain ⟨hs, hlost, hp, -⟩ := Kernel.settled_launchAfter hl
  refine (found_of_run ⟨hs, hlost, hp⟩ hr).2 (ctrl, tid) ?_
  rw [hcall]
  exact List.mem_cons_self

/-- A shell, a task named `a` and the BLE task, which writes `kill a`.  The shell prints what it has to,
looks the task up, and announces its end. -/
def killBoots : List BootCall := [.create 1 "shell", .create 1 "a", .create 1 "ble"]

def killEvents : List ConsoleEvent :=
  .write [0x6B, 0x69, 0x6C, 0x6C, 0x20, 0x61] :: List.replicate 460 (.shell noStack)

theorem controls_the_named_task_run : ∃ k tr s, Kernel.launchAfter killBoots = some k ∧
    Run (step blank) (fun _ _ => True) (start k fun _ => black) tr s ∧ s.todo = [.call .kill 1] ∧
    Found tr s .kill 1 := by
  have hexec : ((Kernel.launchAfter killBoots).bind fun k =>
      (exec (step blank) (fun _ _ => true) (start k fun _ => black) killEvents).filter
        fun s => decide (s.todo = [.call .kill 1])).isSome = true := by decide +kernel
  obtain ⟨s, hs⟩ := Option.isSome_iff_exists.mp hexec
  obtain ⟨k, hk, hs⟩ := Option.bind_eq_some_iff.mp hs
  obtain ⟨hs, htodo⟩ := Option.filter_eq_some_iff.mp hs
  obtain ⟨tr, hr⟩ := exists_run_exec (fun _ _ _ => trivial) .start hs
  exact ⟨k, tr, s, hk, hr, of_decide_eq_true htodo, controls_the_named_task hk hr (of_decide_eq_true htodo)⟩

/-- The task dies in between, by itself, and another one gets its identifier: then `kill a` ends a task that
is named `b`. -/
example : ((Kernel.launchAfter killBoots).bind fun k =>
    (exec (step blank) (fun _ _ => true) (start k fun _ => black) (killEvents ++
        [.other (.systick 49), .other (.call .exitCurrent), .other (.call (.create 1 "b")),
          .other (.call (.delay 5))])).filter
      fun s => decide (s.lines = ["kill a".toList] ∧ s.todo = [.call .kill 1] ∧
        s.kernel.findTid "b" = some 1) && (s.step blank (.shell noStack)).any fun s' =>
          decide (s'.kernel.status 1 = .terminated)).isSome = true := by
  decide +kernel

end Console

end MosKernel
