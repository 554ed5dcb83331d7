import ChipOS.Drivers.Console
import Mathlib.Data.List.ReduceOption
import Mathlib.Logic.Relation

namespace ChipOS
open Relation
set_option autoImplicit true

def uartThr : Nat := 0x00

def uartRhr : Nat := 0x00

def uartLsr : Nat := 0x05

def lsrThre : UInt8 := 0x20

def lsrDr : UInt8 := 0x01

/-- A device behind the registers of a UART. The driver sees only what it reads from a register;
`sent` and `waiting` are the bytes the device was given for the line, and those that came in over
the line and are not read yet. -/
structure Uart (δ : Type) where
  mmioRead8 : δ → Nat → UInt8 × δ
  mmioWrite8 : δ → Nat → UInt8 → δ
  /-- What the device does by itself, and the bytes that come in with it. -/
  moves : δ → List UInt8 → δ → Prop
  sent : δ → List UInt8
  waiting : δ → List UInt8

/-- The line status register shows one of these bits. -/
def Uart.Shows (u : Uart δ) (d : δ) (bit : UInt8) : Prop :=
  (u.mmioRead8 d uartLsr).1 &&& bit ≠ 0

instance (u : Uart δ) (d : δ) (bit : UInt8) : Decidable (u.Shows d bit) :=
  inferInstanceAs (Decidable (_ ≠ _))

/-- Nothing is lost, these bytes come in, and an empty transmitter and received data stay so. -/
structure Uart.Keeps (u : Uart δ) (d : δ) (bytes : List UInt8) (d' : δ) : Prop where
  sent : u.sent d' = u.sent d
  waiting : u.waiting d' = u.waiting d ++ bytes
  thre : u.Shows d lsrThre → u.Shows d' lsrThre
  dr : u.Shows d lsrDr → u.Shows d' lsrDr

/-- How the registers of a UART work: an empty transmitter takes a byte, received data are read in
order, and neither the device by itself nor a look at the line status loses anything. -/
structure Uart.Works (u : Uart δ) : Prop where
  poll : ∀ d, u.Keeps d [] (u.mmioRead8 d uartLsr).2
  move : ∀ d bytes d', u.moves d bytes d' → u.Keeps d bytes d'
  write : ∀ d c, u.Shows d lsrThre → u.sent (u.mmioWrite8 d uartThr c) = u.sent d ++ [c] ∧
    u.waiting (u.mmioWrite8 d uartThr c) = u.waiting d
  read : ∀ d, u.Shows d lsrDr → u.sent (u.mmioRead8 d uartRhr).2 = u.sent d ∧
    u.waiting d = (u.mmioRead8 d uartRhr).1 :: u.waiting (u.mmioRead8 d uartRhr).2
  /-- The transmitter gets empty in the end. -/
  drains : ∀ d, ∃ d', ReflTransGen (fun d d' => ∃ bytes, u.moves d bytes d') d d' ∧
    u.Shows d' lsrThre

inductive ConsoleOp where
  | putchar (c : UInt8)
  | getchar
  | getcharNonblocking
deriving DecidableEq, Repr

/-- The driver between two accesses to the registers, and the device. `ready` is set when the loop
that polls the line status has ended, `results` are what the calls have returned so far, and
`arrived` are the bytes that have come in. -/
structure Bus (δ : Type) where
  todo : List ConsoleOp
  ready : Bool
  results : List (Option UInt8)
  dev : δ
  arrived : List UInt8

/-- The test of the loop that polls for this bit. -/
def Bus.poll (u : Uart δ) (b : Bus δ) (bit : UInt8) : Bus δ :=
  let (lsr, dev) := u.mmioRead8 b.dev uartLsr
  { b with ready := lsr &&& bit ≠ 0, dev }

/-- The access that reads a character. -/
def Bus.take (u : Uart δ) (b : Bus δ) (rest : List ConsoleOp) : Bus δ :=
  let (c, dev) := u.mmioRead8 b.dev uartRhr
  ⟨rest, false, b.results ++ [some c], dev, b.arrived⟩

def Bus.access (u : Uart δ) (b : Bus δ) : Bus δ :=
  match b.todo with
  | [] => b
  | .putchar c :: rest =>
    if b.ready then { b with todo := rest, ready := false, dev := u.mmioWrite8 b.dev uartThr c }
    else b.poll u lsrThre
  | .getchar :: rest => if b.ready then b.take u rest else b.poll u lsrDr
  | .getcharNonblocking :: rest =>
    if b.ready then b.take u rest
    else
      let polled := b.poll u lsrDr
      if polled.ready then polled
      else { polled with todo := rest, results := b.results ++ [none] } -- returns -1

/-- The driver and the device take turns in any order. -/
inductive Bus.Step (u : Uart δ) (b : Bus δ) : Bus δ → Prop
  | driver : Bus.Step u b (b.access u)
  | device : u.moves b.dev bytes d → Bus.Step u b { b with dev := d, arrived := b.arrived ++ bytes }

def ConsoleOp.written : ConsoleOp → Option UInt8
  | .putchar c => some c
  | _ => none

def ConsoleOp.reads : ConsoleOp → Bool
  | .putchar _ => false
  | _ => true

def consolePuts (str : List UInt8) : List ConsoleOp := str.map .putchar

def consolePrintln (str : List UInt8) : List ConsoleOp := consolePuts str ++ [.putchar '\n'.toUInt8]

/-- What is done and what is left are the calls, what was written is on its way, and what was read
is what came in, each byte once and in its order. -/
structure BusInv (u : Uart δ) (ops : List ConsoleOp) (d₀ : δ) (b : Bus δ) : Prop where
  calls : ∃ done, ops = done ++ b.todo ∧ u.sent b.dev = u.sent d₀ ++ done.filterMap ConsoleOp.written ∧
    b.results.length = (done.filter ConsoleOp.reads).length
  input : b.results.reduceOption ++ u.waiting b.dev = u.waiting d₀ ++ b.arrived
  ready : b.ready = true → ∃ op rest, b.todo = op :: rest ∧
    u.Shows b.dev (if op.reads then lsrDr else lsrThre)

section
variable {u : Uart δ} {b b' : Bus δ} {ops : List ConsoleOp} {d₀ d : δ}

theorem busInv_start (u : Uart δ) (ops : List ConsoleOp) (d₀ : δ) :
    BusInv u ops d₀ ⟨ops, false, [], d₀, []⟩ :=
  ⟨⟨[], rfl, (List.append_nil _).symm, rfl⟩, (List.append_nil _).symm, nofun⟩

theorem Uart.Keeps.shows (hk : u.Keeps d bytes d') {op : ConsoleOp}
    (hs : u.Shows d (if op.reads then lsrDr else lsrThre)) :
    u.Shows d' (if op.reads then lsrDr else lsrThre) := by
  split
  · next hreads =>
    rw [if_pos hreads] at hs
    exact hk.dr hs
  · next hwrites =>
    rw [if_neg hwrites] at hs
    exact hk.thre hs

theorem BusInv.keeps (hi : BusInv u ops d₀ b) (hk : u.Keeps b.dev bytes d) :
    BusInv u ops d₀ { b with dev := d, arrived := b.arrived ++ bytes } := by
  obtain ⟨done, hops, hsent, hlen⟩ := hi.calls
  refine ⟨⟨done, hops, hk.sent.trans hsent, hlen⟩, ?_, fun hready => ?_⟩
  · rw [← List.append_assoc, ← hi.input, List.append_assoc, hk.waiting]
  · obtain ⟨op, rest, htodo, hs⟩ := hi.ready hready
    exact ⟨op, rest, htodo, hk.shows hs⟩

theorem BusInv.poll (hu : u.Works) (hi : BusInv u ops d₀ b) {op : ConsoleOp}
    (htodo : b.todo = op :: rest) (hbit : bit = if op.reads then lsrDr else lsrThre) :
    BusInv u ops d₀ (b.poll u bit) := by
  have hkeeps := hu.poll b.dev
  have hnext := hi.keeps hkeeps
  rw [List.append_nil] at hnext
  refine ⟨hnext.calls, hnext.input, fun hready => ⟨op, rest, htodo, hkeeps.shows ?_⟩⟩
  rw [← hbit]
  exact of_decide_eq_true hready

theorem BusInv.take (hu : u.Works) (hi : BusInv u ops d₀ b) {op : ConsoleOp}
    (htodo : b.todo = op :: rest) (hop : op.reads = true) (hready : b.ready = true) :
    BusInv u ops d₀ (b.take u rest) := by
  obtain ⟨done, hops, hsent, hlen⟩ := hi.calls
  have hinput := hi.input
  obtain ⟨op', rest', htodo', hs⟩ := hi.ready hready
  cases htodo.symm.trans htodo'
  rw [if_pos hop] at hs
  obtain ⟨hsame, hread⟩ := hu.read b.dev hs
  have hwritten : op.written = none := by
    cases op with
    | putchar c => cases hop
    | getchar => rfl
    | getcharNonblocking => rfl
  refine ⟨⟨done ++ [op], ?_, ?_, ?_⟩, ?_, nofun⟩
  · rw [hops, htodo, List.append_assoc]
    rfl
  · rw [List.filterMap_append, List.filterMap_cons_none hwritten, List.filterMap_nil, List.append_nil]
    exact hsame.trans hsent
  · rw [List.filter_append, List.filter_cons_of_pos hop, List.length_append]
    exact (List.length_append).trans (congrArg (· + 1) hlen)
  · have harrived : (b.take u rest).arrived = b.arrived := rfl
    rw [harrived, ← hinput, hread, Bus.take, List.reduceOption_append, List.append_assoc]
    rfl

theorem BusInv.access (hu : u.Works) (hi : BusInv u ops d₀ b) : BusInv u ops d₀ (b.access u) := by
  rw [Bus.access]
  cases htodo : b.todo with
  | nil => exact hi
  | cons op rest =>
    cases op with
    | putchar c =>
      dsimp only
      split
      · next hready =>
        obtain ⟨done, hops, hsent, hlen⟩ := hi.calls
        have hinput := hi.input
        obtain ⟨op', rest', htodo', hs⟩ := hi.ready hready
        cases htodo.symm.trans htodo'
        obtain ⟨hwrite, hsame⟩ := hu.write b.dev c hs
        refine ⟨⟨done ++ [.putchar c], ?_, ?_, ?_⟩, ?_, nofun⟩
        · rw [hops, htodo, List.append_assoc]
          rfl
        · rw [hwrite, hsent, List.filterMap_append, List.append_assoc]
          rfl
        · rw [List.filter_append, List.length_append]
          exact hlen
        · rw [hsame]
          exact hinput
      · exact hi.poll hu htodo rfl
    | getchar =>
      dsimp only
      split
      · next hready => exact hi.take hu htodo rfl hready
      · exact hi.poll hu htodo rfl
    | getcharNonblocking =>
      dsimp only
      split
      · next hready => exact hi.take hu htodo rfl hready
      · have hpolled := hi.poll hu htodo rfl
        split
        · exact hpolled
        · next hno =>
          obtain ⟨done, hops, hsent, hlen⟩ := hpolled.calls
          have hinput := hpolled.input
          have hops' : ops = done ++ b.todo := hops
          have hlen' : b.results.length = (done.filter ConsoleOp.reads).length := hlen
          refine ⟨⟨done ++ [.getcharNonblocking], ?_, ?_, ?_⟩, ?_, ?_⟩
          · rw [hops', htodo, List.append_assoc]
            rfl
          · rw [List.filterMap_append]
            exact hsent.trans (by rw [← List.append_assoc]; exact (List.append_nil _).symm)
          · dsimp only
            rw [List.filter_append, List.length_append, List.length_append, hlen']
            rfl
          · rw [List.reduceOption_append]
            exact (congrArg (· ++ _) (List.append_nil _)).trans hinput
          · exact fun hready => absurd hready hno

theorem BusInv.step (hu : u.Works) (hi : BusInv u ops d₀ b) (hs : b.Step u b') :
    BusInv u ops d₀ b' := by
  cases hs with
  | driver => exact hi.access hu
  | device hmove => exact hi.keeps (hu.move _ _ _ hmove)

theorem BusInv.run (hu : u.Works) (hi : BusInv u ops d₀ b) (hr : ReflTransGen (Bus.Step u) b b') :
    BusInv u ops d₀ b' := by
  induction hr with
  | refl => exact hi
  | tail _ hs ih => exact ih.step hu hs

theorem device_run (hr : ReflTransGen (fun d d' => ∃ bytes, u.moves d bytes d') b.dev d) :
    ∃ bytes, ReflTransGen (Bus.Step u) b { b with dev := d, arrived := bytes } := by
  induction hr with
  | refl => exact ⟨b.arrived, .refl⟩
  | tail _ hmove ih =>
    obtain ⟨more, hmove⟩ := hmove
    obtain ⟨bytes, hrun⟩ := ih
    exact ⟨bytes ++ more, hrun.tail (.device hmove)⟩

theorem writes_next (hu : u.Works) (htodo : b.todo = .putchar c :: rest) :
    ∃ b', ReflTransGen (Bus.Step u) b b' ∧ b'.todo = rest := by
  have hwrite : ∀ b : Bus δ, b.todo = .putchar c :: rest → b.ready = true →
      ∃ b', ReflTransGen (Bus.Step u) b b' ∧ b'.todo = rest := by
    intro b htodo hready
    refine ⟨b.access u, .single .driver, ?_⟩
    rw [Bus.access, htodo]
    dsimp only
    rw [if_pos hready]
  by_cases hready : b.ready = true
  · exact hwrite b htodo hready
  · obtain ⟨d, hdrain, hs⟩ := hu.drains b.dev
    obtain ⟨bytes, hdrain⟩ := device_run hdrain
    obtain ⟨polled, hpolled⟩ : ∃ polled,
      polled = Bus.access u { b with dev := d, arrived := bytes } := ⟨_, rfl⟩
    have heq : polled = Bus.poll u { b with dev := d, arrived := bytes } lsrThre := by
      rw [hpolled, Bus.access, htodo]
      dsimp only
      rw [if_neg hready]
    have hend : polled.todo = .putchar c :: rest ∧ polled.ready = true := by
      rw [heq]
      exact ⟨htodo, decide_eq_true hs⟩
    obtain ⟨b', hrun, hb'⟩ := hwrite polled hend.1 hend.2
    refine ⟨b', hdrain.trans (.head ?_ hrun), hb'⟩
    rw [hpolled]
    exact .driver

theorem writes_all (hu : u.Works) (hw : ∀ op ∈ b.todo, ConsoleOp.reads op = false) :
    ∃ b', ReflTransGen (Bus.Step u) b b' ∧ b'.todo = [] := by
  induction htodo : b.todo generalizing b with
  | nil => exact ⟨b, .refl, htodo⟩
  | cons op rest ih =>
    rw [htodo] at hw
    obtain ⟨hop, hrest⟩ := List.forall_mem_cons.1 hw
    cases op with
    | putchar c =>
      obtain ⟨b₁, hrun, hb₁⟩ := writes_next hu htodo
      obtain ⟨b', hmore, hb'⟩ := ih (hb₁ ▸ hrest) hb₁
      exact ⟨b', hrun.trans hmore, hb'⟩
    | getchar => cases hop
    | getcharNonblocking => cases hop

end

/-- However the driver and a working UART take turns, the characters that the calls of the driver
write are on their way to the line once each and in order, and what the calls have read and what
waits to be read is what waited at first and what has come in since, once each and in order. Calls
that only write can always come to their end. -/
theorem uart_in_order {u : Uart δ} (hu : u.Works)
    (hr : ReflTransGen (Bus.Step u) ⟨ops, false, [], d₀, []⟩ b) :
    (∃ done, ops = done ++ b.todo ∧ u.sent b.dev = u.sent d₀ ++ done.filterMap ConsoleOp.written ∧
        b.results.length = (done.filter ConsoleOp.reads).length) ∧
      b.results.reduceOption ++ u.waiting b.dev = u.waiting d₀ ++ b.arrived ∧
      ((∀ op ∈ ops, ConsoleOp.reads op = false) → ∃ b', ReflTransGen (Bus.Step u) b b' ∧
        b'.todo = [] ∧ u.sent b'.dev = u.sent d₀ ++ ops.filterMap ConsoleOp.written) := by
  have hi := (busInv_start u ops d₀).run hu hr
  refine ⟨hi.calls, hi.input, fun hw => ?_⟩
  obtain ⟨done, hops, _⟩ := hi.calls
  have hleft : ∀ op ∈ b.todo, ConsoleOp.reads op = false :=
    fun op hop => hw op (hops ▸ List.mem_append_right done hop)
  obtain ⟨b', hmore, hb'⟩ := writes_all hu hleft
  obtain ⟨done', hops', hsent, _⟩ := (hi.run hu hmore).calls
  rw [hb', List.append_nil] at hops'
  exact ⟨b', hmore, hb', hops' ▸ hsent⟩

/-- The registers of a 16550 without FIFOs, and what has left on the line. -/
structure Ns16550 where
  thr : Option UInt8
  rhr : Option UInt8
  line : List UInt8

/-- The transmitter shifts its byte out, and a byte comes in where the last one was read. -/
inductive Ns16550.Moves (d : Ns16550) : List UInt8 → Ns16550 → Prop
  | transmit : d.thr = some c → Moves d [] { d with thr := none, line := d.line ++ [c] }
  | receive : d.rhr = none → Moves d [c] { d with rhr := some c }

def ns16550 : Uart Ns16550 where
  mmioRead8 := fun d offset =>
    if offset = uartLsr then
      ((if d.thr = none then lsrThre else 0) ||| (if d.rhr = none then 0 else lsrDr), d)
    else if offset = uartRhr then (d.rhr.getD 0, { d with rhr := none })
    else (0, d)
  mmioWrite8 := fun d offset c => if offset = uartThr then { d with thr := some c } else d
  moves := Ns16550.Moves
  sent := fun d => d.line ++ d.thr.toList
  waiting := fun d => d.rhr.toList

theorem ns16550_lsr (d : Ns16550) : (ns16550.mmioRead8 d uartLsr).1 =
    (if d.thr = none then lsrThre else 0) ||| (if d.rhr = none then 0 else lsrDr) := rfl

theorem ns16550_thre {d : Ns16550} : ns16550.Shows d lsrThre ↔ d.thr = none := by
  rw [Uart.Shows, ns16550_lsr]
  by_cases ht : d.thr = none
  · rw [if_pos ht]
    split
    · exact iff_of_true (by decide) ht
    · exact iff_of_true (by decide) ht
  · rw [if_neg ht]
    split
    · exact iff_of_false (by decide) ht
    · exact iff_of_false (by decide) ht

theorem ns16550_dr {d : Ns16550} : ns16550.Shows d lsrDr ↔ d.rhr ≠ none := by
  rw [Uart.Shows, ns16550_lsr]
  by_cases hr : d.rhr = none
  · rw [if_pos hr]
    split
    · exact iff_of_false (by decide) (not_not.2 hr)
    · exact iff_of_false (by decide) (not_not.2 hr)
  · rw [if_neg hr]
    split
    · exact iff_of_true (by decide) hr
    · exact iff_of_true (by decide) hr

theorem ns16550_works : ns16550.Works where
  poll := fun _ => ⟨rfl, (List.append_nil _).symm, fun h => h, fun h => h⟩
  move := by
    rintro d _ _ (⟨ht⟩ | ⟨hr⟩)
    · have hdr : ns16550.Shows d lsrDr → d.rhr ≠ none := ns16550_dr.1
      refine ⟨?_, (List.append_nil _).symm, fun _ => ns16550_thre.2 rfl, fun h => ns16550_dr.2 (hdr h)⟩
      have hsent : ns16550.sent d = d.line ++ d.thr.toList := rfl
      rw [hsent, ht]
      exact List.append_nil _
    · have hthre : ns16550.Shows d lsrThre → d.thr = none := ns16550_thre.1
      refine ⟨rfl, ?_, fun h => ns16550_thre.2 (hthre h), fun _ => ns16550_dr.2 nofun⟩
      have hwaiting : ns16550.waiting d = d.rhr.toList := rfl
      rw [hwaiting, hr]
      rfl
  write := by
    intro d c h
    have hsent : ns16550.sent d = d.line ++ d.thr.toList := rfl
    rw [hsent, ns16550_thre.1 h, Option.toList_none, List.append_nil]
    exact ⟨rfl, rfl⟩
  read := by
    intro d h
    obtain ⟨c, hc⟩ := Option.ne_none_iff_exists'.1 (ns16550_dr.1 h)
    have hwaiting : ns16550.waiting d = d.rhr.toList := rfl
    have hread : ns16550.mmioRead8 d uartRhr = (d.rhr.getD 0, { d with rhr := none }) := rfl
    rw [hwaiting, hread, hc]
    exact ⟨rfl, rfl⟩
  drains := by
    intro d
    cases ht : d.thr with
    | none => exact ⟨d, .refl, ns16550_thre.2 ht⟩
    | some c => exact ⟨_, .single ⟨[], .transmit ht⟩, ns16550_thre.2 rfl⟩

/-- A character that comes in is read, and a line is written. -/
theorem uart_in_order_echo : ∃ b,
    ReflTransGen (Bus.Step ns16550)
      ⟨[.getchar, .putchar 97], false, [], ⟨none, none, []⟩, []⟩ b ∧ b.arrived = [97] ∧
    b.results.reduceOption ++ ns16550.waiting b.dev = [97] ∧ b.todo = [.putchar 97] ∧
    ∃ b', ReflTransGen (Bus.Step ns16550)
      ⟨consolePrintln [65], false, [], ⟨none, none, []⟩, []⟩ b' ∧ b'.todo = [] ∧
      ns16550.sent b'.dev = [65, '\n'.toUInt8] := by
  obtain ⟨b, hrun, hb, harrived⟩ : ∃ b, ReflTransGen (Bus.Step ns16550)
      ⟨[.getchar, .putchar 97], false, [], ⟨none, none, []⟩, []⟩ b ∧ b.todo = [.putchar 97] ∧
      b.arrived = [97] :=
    ⟨_, .tail (.tail (.single (.device (.receive (c := 97) rfl))) .driver) .driver, rfl, rfl⟩
  obtain ⟨_, hinput, _⟩ := uart_in_order ns16550_works hrun
  obtain ⟨_, _, hend⟩ := uart_in_order ns16550_works
    (.refl : ReflTransGen (Bus.Step ns16550)
      ⟨consolePrintln [65], false, [], ⟨none, none, []⟩, []⟩ _)
  obtain ⟨b', hmore, hb', hsent⟩ := hend (by decide)
  exact ⟨b, hrun, harrived, hinput.trans harrived, hb, b', hmore, hb', hsent⟩

end ChipOS
