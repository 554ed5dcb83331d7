import ChipOS.Fault
import ChipOS.Lib.CharArray
import ChipOS.Lib.Ring
import Mathlib.Data.List.Infix

namespace ChipOS
open CharArray Run
set_option autoImplicit true

def maxCommandLength : Nat := 256

def maxArgs : Nat := 10

def historySize : Nat := 20

/-- The static data of the shell. -/
structure History where
  commandHistory : Int → Chars
  historyCount : Int

def History.empty : History := ⟨fun _ _ => 0, 0⟩

def History.line (h : History) (i : Int) : Except Fault Chars :=
  checked .commandHistory (if 0 ≤ i ∧ i < historySize then some (h.commandHistory i) else none)

/-- The buffer and the locals of `console_gets_with_history` at the head of its loop. -/
structure EditLine where
  buffer : Chars
  pos : Int
  currentHistory : Int
  tempBuffer : Chars

/-- The locals at the first key of a prompt, over what the buffer held before it. -/
def freshLine (buffer : Chars) : EditLine := ⟨buffer, 0, -1, fun _ => 0⟩

/-- What is typed up to the cursor. -/
def EditLine.line (s : EditLine) : List UInt8 := bytes s.buffer s.pos.toNat

/-- What one iteration of the loop reads, other than `Enter`. -/
inductive Key where
  | up
  | down
  | backspace
  | char (c : UInt8)
  | ignored
deriving DecidableEq, Repr

/-- The key of an `ESC` and the two bytes read after it. -/
def escapeSequence (seq1 seq2 : UInt8) : Key :=
  if seq1 = '['.toUInt8 then
    if seq2 = 'A'.toUInt8 then .up
    else if seq2 = 'B'.toUInt8 then .down
    else .ignored
  else .ignored

/-- The keys read from these bytes before the first `Enter`, and whether it comes. -/
def readKeys : List UInt8 → List Key × Bool
  | [] => ([], false)
  | c :: input =>
    if c = '\n'.toUInt8 ∨ c = '\r'.toUInt8 then ([], true)
    else if c = 0x1B then
      match input with
      | seq1 :: seq2 :: input =>
        let (keys, enter) := readKeys input
        (escapeSequence seq1 seq2 :: keys, enter)
      | _ => ([], false)
    else
      let (keys, enter) := readKeys input
      (if c = 8 ∨ c = 127 then .backspace :: keys else .char c :: keys, enter)

/-- What the terminal sends for a key. -/
def Key.bytes : Key → List UInt8
  | .up => [0x1B, '['.toUInt8, 'A'.toUInt8]
  | .down => [0x1B, '['.toUInt8, 'B'.toUInt8]
  | .backspace => [8]
  | .char c => [c]
  | .ignored => [0x1B, '['.toUInt8, 'C'.toUInt8]

/-- A byte that is no control of the editing. -/
def Key.Plain : Key → Prop
  | .char c => c ≠ '\n'.toUInt8 ∧ c ≠ '\r'.toUInt8 ∧ c ≠ 0x1B ∧ c ≠ 8 ∧ c ≠ 127
  | _ => True

theorem readKeys_cons (hn : ¬(c = '\n'.toUInt8 ∨ c = '\r'.toUInt8)) (hesc : c ≠ 0x1B) :
    readKeys (c :: input) =
      (if c = 8 ∨ c = 127 then .backspace :: (readKeys input).1 else .char c :: (readKeys input).1,
        (readKeys input).2) := by
  rw [readKeys.eq_def]
  dsimp only
  rw [if_neg hn, if_neg hesc]

theorem readKeys_bytes (hk : ∀ k ∈ keys, Key.Plain k) :
    readKeys (keys.flatMap Key.bytes ++ ['\n'.toUInt8]) = (keys, true) := by
  induction keys with
  | nil => rfl
  | cons k keys ih =>
    obtain ⟨hplain, hrest⟩ := List.forall_mem_cons.1 hk
    have ih := ih hrest
    rw [List.flatMap_cons, List.append_assoc]
    cases k with
    | up => exact congrArg (fun r : List Key × Bool => (Key.up :: r.1, r.2)) ih
    | down => exact congrArg (fun r : List Key × Bool => (Key.down :: r.1, r.2)) ih
    | ignored => exact congrArg (fun r : List Key × Bool => (Key.ignored :: r.1, r.2)) ih
    | backspace =>
      rw [Key.bytes, List.singleton_append, readKeys_cons (by decide) (by decide), ih,
        if_pos (.inl rfl)]
    | char c =>
      obtain ⟨hn, hr, hesc, hback, hdel⟩ := hplain
      rw [Key.bytes, List.singleton_append, readKeys_cons (not_or.2 ⟨hn, hr⟩) hesc, ih,
        if_neg (not_or.2 ⟨hback, hdel⟩)]

/-- `strcpy(buffer, src); pos = strlen(buffer);` -/
def EditLine.load (s : EditLine) (src : Chars) : Except Fault EditLine := do
  let buffer ← checked .inputBuffer
    (CharArray.strcpy maxCommandLength s.buffer 0 maxCommandLength src 0)
  let pos ← checked .inputBuffer (CharArray.strlen maxCommandLength buffer)
  return { s with buffer, pos }

/-- The choice of the line at the key `UP`. -/
def EditLine.stepBack (h : History) (s : EditLine) : Except Fault EditLine := do
  if s.currentHistory = -1 then
    let tempBuffer ← checked .tempBuffer
      (CharArray.strcpy maxCommandLength s.tempBuffer 0 maxCommandLength s.buffer 0)
    return { s with tempBuffer, currentHistory := (h.historyCount - 1).tmod historySize }
  else if s.currentHistory ≠ h.historyCount.tmod historySize then
    return { s with currentHistory := (s.currentHistory - 1 + historySize).tmod historySize }
  else return s

/-- One iteration of the loop, for a key other than `Enter`. -/
def pressKey (h : History) (maxLen : Int) (s : EditLine) : Key → Except Fault EditLine
  | .up => do
    if h.historyCount > 0 then
      let s ← s.stepBack h
      let line ← h.line s.currentHistory
      s.load line
    else return s
  | .down => do
    if s.currentHistory ≠ -1 then
      let s := { s with currentHistory := (s.currentHistory + 1).tmod historySize }
      if s.currentHistory = h.historyCount.tmod historySize then
        let s ← s.load s.tempBuffer
        return { s with currentHistory := -1 }
      else
        let line ← h.line s.currentHistory
        s.load line
    else return s
  | .backspace => .ok (if s.pos > 0 then { s with pos := s.pos - 1 } else s)
  | .char c => do
    if s.pos < maxLen - 1 then
      let buffer ← checked .inputBuffer (CharArray.set maxCommandLength s.buffer s.pos c)
      return { s with buffer, pos := s.pos + 1 }
    else return s
  | .ignored => .ok s

/-- `Enter`: the history and the locals when the function returns. -/
def enterLine (h : History) (s : EditLine) : Except Fault (History × EditLine) := do
  let buffer ← checked .inputBuffer (CharArray.set maxCommandLength s.buffer s.pos 0)
  if s.pos > 0 then
    let i := h.historyCount.tmod historySize
    let old ← h.line i
    let line ← checked .commandHistory
      (CharArray.strcpy maxCommandLength old 0 maxCommandLength buffer 0)
    -- the increment of the largest `int` is undefined
    if h.historyCount < intMax then
      return (⟨Function.update h.commandHistory i line, h.historyCount + 1⟩, { s with buffer })
    else .error .intOverflow
  else return (h, { s with buffer })

/-- A call on a buffer of `maxCommandLength` bytes; `none` while it waits for more input. -/
def consoleGetsWithHistory (h : History) (buffer : Chars) (maxLen : Int) (input : List UInt8) :
    Except Fault (Option (History × EditLine)) := do
  let (keys, enter) := readKeys input
  let s ← exec (pressKey h maxLen) (freshLine buffer) keys
  if enter then
    let r ← enterLine h s
    return some r
  else return none

def isBlank (c : UInt8) : Bool := c = ' '.toUInt8 ∨ c = '\t'.toUInt8

/-- The loop of `parse_command` from the index `token` on, with room for so many arguments: where
they start, and the buffer with a NUL behind each. -/
def parseCommandFrom : Nat → Chars → Int → Except Fault (List Int × Chars)
  | 0, input, _ => .ok ([], input)
  | room + 1, input, token => do
    let arg ← checked .inputBuffer (scan maxCommandLength isBlank input maxCommandLength token)
    let c ← checked .inputBuffer (CharArray.get maxCommandLength input arg)
    if c = 0 then return ([], input)
    let stop ← checked .inputBuffer
      (scan maxCommandLength (!isBlank ·) input maxCommandLength arg)
    let c ← checked .inputBuffer (CharArray.get maxCommandLength input stop)
    if c = 0 then return ([arg], input)
    let input ← checked .inputBuffer (CharArray.set maxCommandLength input stop 0)
    let (args, input) ← parseCommandFrom room input (stop + 1)
    return (arg :: args, input)

def parseCommand (input : Chars) : Except Fault (List Int × Chars) :=
  parseCommandFrom maxArgs input 0

/-- The prompts of `shell_run`: the lines entered so far, the latest first, and the history and the
input buffer when the next prompt appears. The commands only read their arguments. -/
inductive ShellRun : List (List UInt8) → History → Chars → Prop
  | boot (buffer : Chars) : ShellRun [] .empty buffer
  | blank : ShellRun lines h buffer →
      consoleGetsWithHistory h buffer maxCommandLength input = .ok (some (h', s)) → s.pos ≤ 0 →
      ShellRun lines h' s.buffer
  | entered : ShellRun lines h buffer →
      consoleGetsWithHistory h buffer maxCommandLength input = .ok (some (h', s)) → 0 < s.pos →
      parseCommand s.buffer = .ok (args, buffer') →
      ShellRun (text maxCommandLength s.buffer :: lines) h' buffer'

end ChipOS
