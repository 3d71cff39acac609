import Fennix.Framework.System
import Fennix.Tty.TerminalBuffer
import Mathlib.Algebra.Order.Ring.Int

/-! # Virtual terminals

    The screen, the parser of escape sequences and the line discipline of
    `VirtualTerminal` in `Kernel/tty/vt.cpp`: what `Process` does with each byte that is
    written. `ws_row` is the width of the screen and `ws_col` its height.

    `sequence_right_iff`: a sequence is parsed as it should be exactly if it has fewer than
    eight parameters. The end of the eighth one is stored behind `Stack`.
-/

namespace Fennix.Tty

open Function (update update_self update_of_ne)

/-! ## Section 1: The screen -/

/-- A character of the source. -/
def chr (c : Char) : Byte := BitVec.ofNat 8 c.toNat

/-- A value of type `int` -/
def int (v : Int) : Int := v.bmod (2 ^ 32)

structure TerminalAttribute where
  bright : Bool := false
  background : Nat := 0
  foreground : Nat := 7

structure TerminalCell where
  c : Byte
  attr : TerminalAttribute

/-- `ws_row` and `ws_col`. There is an array of `Rows * Columns` cells, which is an `int`. -/
structure Size where
  width : Nat
  height : Nat
  width_pos : 0 < width
  height_pos : 0 < height
  width_lt : width < 2 ^ 16
  height_lt : height < 2 ^ 16
  fits : width * height < 2 ^ 31

structure Screen extends Size where
  cells : Nat → TerminalCell
  x : Int
  y : Int
  attr : TerminalAttribute

/-- The cells, after an access that is inside of them. -/
def Screen.store (s : Screen) (i : Int) (cell : TerminalCell) : Option Screen :=
  if 0 ≤ i ∧ i < s.width * s.height then some { s with cells := update s.cells i.toNat cell }
  else none

/-- `VirtualTerminal::Clear`. The arguments are of type `unsigned short`. -/
def Screen.clear (s : Screen) (startX startY endX endY : Int) : Option Screen :=
  let start : Int := startX % 2 ^ 16 + startY % 2 ^ 16 * s.width
  let stop : Int := endX % 2 ^ 16 + endY % 2 ^ 16 * s.width
  if start < stop ∧ s.width * s.height < stop then none
  else some { s with
    cells := fun i =>
      if start ≤ (i : Int) ∧ (i : Int) < stop then ⟨chr ' ', {}⟩ else s.cells i }

/-- `VirtualTerminal::Scroll` -/
def Screen.scroll (s : Screen) (lines : Nat) : Screen :=
  let lines := min lines s.height
  { s with
    cells := fun i =>
      if i < s.width * s.height - s.width * lines then s.cells (i + s.width * lines)
      else if i < s.width * s.height then ⟨chr ' ', {}⟩ else s.cells i
    y := if s.y > 0 then max (s.y - lines) 0 else s.y }

/-- `VirtualTerminal::NewLine` -/
def Screen.newLine (s : Screen) : Screen :=
  if s.y + 1 ≥ s.height then { s with x := 0, y := s.y + 1 }.scroll 1
  else { s with x := 0, y := s.y + 1 }

/-- The last branch of `Append`: a character goes to a cell. -/
def Screen.appendCell (s : Screen) (c : Byte) : Option Screen :=
  let s := if s.x ≥ s.width then s.newLine else s
  (s.store (s.x + s.y * s.width) ⟨c, s.attr⟩).map fun s => { s with x := s.x + 1 }

def Screen.appendSpaces (s : Screen) : Nat → Option Screen
  | 0 => some s
  | n + 1 => (s.appendCell (chr ' ')).bind (appendSpaces · n)

/-- `VirtualTerminal::Append` -/
def Screen.append (s : Screen) (c : Byte) : Option Screen :=
  if c = chr '\n' then some s.newLine
  else if c = chr '\r' then some { s with x := 0 }
  else if c = chr '\t' then s.appendSpaces (8 - s.x.tmod 8).toNat
  else if c = 8 then
    some (if s.x > 0 then { s with x := s.x - 1 } else { s with x := s.width - 1, y := s.y - 1 })
  else s.appendCell c

/-- `struct ANSIArgument` -/
structure ANSIArgument where
  value : Int := 0
  empty : Bool := true

/-- The functions that sequences are for. -/
inductive Handler where
  | cuu | cud | cuf | cub | cnl | cpl | cha | cup | ed | el | sgr
  deriving DecidableEq

/-- `P1` of the handlers that move the cursor -/
def p1 (args : Nat → ANSIArgument) (argsCount : Nat) : Int :=
  if argsCount > 0 ∧ (args 0).empty = false then (args 0).value else 1

/-- One step of the loop of `csi_sgr` -/
def selectGraphic (a : TerminalAttribute) (arg : ANSIArgument) : TerminalAttribute :=
  if arg.empty = true ∨ arg.value = 0 then {}
  else if arg.value = 1 then { a with bright := true }
  else if 30 ≤ arg.value ∧ arg.value ≤ 37 then { a with foreground := (arg.value - 30).toNat }
  else if 40 ≤ arg.value ∧ arg.value ≤ 47 then { a with background := (arg.value - 40).toNat }
  else a

/-- `csi_cuu` to `csi_sgr` -/
def Screen.csi (s : Screen) (args : Nat → ANSIArgument) (argsCount : Nat) :
    Handler → Option Screen
  | .cuu => some { s with y := max (s.y - p1 args argsCount) 0 }
  | .cud => some { s with y := min (s.y + p1 args argsCount) (s.height - 1) }
  | .cuf => some { s with x := min (s.x + p1 args argsCount) (s.width - 1) }
  | .cub => some { s with x := max (s.x - p1 args argsCount) 0 }
  | .cnl => some { s with x := 0, y := min (s.y + p1 args argsCount) (s.height - 1) }
  | .cpl => some { s with x := 0, y := max (s.y - p1 args argsCount) 0 }
  | .cha => some { s with x := min (int (p1 args argsCount - 1)) (s.width - 1) }
  | .cup =>
    if argsCount = 1 ∧ (args 0).empty = true then some { s with x := 0, y := 0 }
    else if argsCount = 2 then
      -- without a column it is the line that is set
      if (args 1).empty = true then some { s with y := 0 }
      else some { s with
        x := min (int ((args 1).value - 1)) (s.width - 1)
        y := if (args 0).empty = true then 0 else min (int ((args 0).value - 1)) (s.height - 1) }
    else some s
  | .ed =>
    if (args 0).empty = true ∨ (args 0).value = 0 then s.clear s.x s.y s.width (s.height - 1)
    else if (args 0).value = 1 then s.clear 0 0 s.x s.y
    else if (args 0).value = 2 then s.clear 0 0 s.width (s.height - 1)
    else some s
  | .el =>
    if (args 0).empty = true ∨ (args 0).value = 0 then s.clear s.x s.y s.width s.y
    else if (args 0).value = 1 then s.clear 0 s.y s.x s.y
    else if (args 0).value = 2 then s.clear 0 s.y s.width s.y
    else some s
  | .sgr => some { s with
      attr := ((List.range argsCount).map args).foldl selectGraphic s.attr }

/-- What a byte does to the screen: a character, `VERASE`, or a sequence. -/
inductive Op where
  | append (c : Byte)
  | erase
  | csi (handler : Handler) (args : Nat → ANSIArgument) (argsCount : Nat)

def Screen.perform (s : Screen) : Op → Option Screen
  | .append c => s.append c
  | .erase =>
    if s.x > 0 then
      (({ s with x := s.x - 1 }.append 8).bind (·.append (chr ' '))).bind (·.append 8)
    else some s
  | .csi handler args argsCount => s.csi args argsCount handler

/-! ## Section 2: The parser -/

inductive ParserState where
  | escape | bracket | attr | endValue
  deriving DecidableEq

/-- `struct ANSIParser` -/
structure ANSIParser where
  state : ParserState := .escape
  stack : Nat → ANSIArgument := fun _ => {}
  index : Nat := 0

/-- The eight entries of `Stack`, after a store that is inside of them. -/
def ANSIParser.store (p : ANSIParser) (i : Nat) (a : ANSIArgument) : Option ANSIParser :=
  if i < 8 then some { p with stack := update p.stack i a } else none

def isDigit (c : Byte) : Bool := 48 ≤ c.toNat ∧ c.toNat ≤ 57

/-- The function of a last byte, if there is one. -/
def handlerOf (c : Byte) : Option Handler :=
  ([('A', .cuu), ('B', .cud), ('C', .cuf), ('D', .cub), ('E', .cnl), ('F', .cpl), ('G', .cha),
    ('H', .cup), ('J', .ed), ('K', .el), ('m', .sgr)].find? fun e => chr e.1 = c).map Prod.snd

/-- The end of `Process`, in the state `EndValue` -/
def ANSIParser.endValue (p : ANSIParser) (c : Byte) : ANSIParser × Option Op :=
  if c = chr ';' then ({ p with state := .attr }, none)
  else ({ p with state := .escape }, (handlerOf c).map (.csi · p.stack p.index))

/-- `Process`, after the control characters -/
def ANSIParser.next (p : ANSIParser) (c : Byte) : Option (ANSIParser × Option Op) :=
  match p.state with
  | .escape =>
    if c = 0x1B then ({ p with state := .bracket, index := 0 }.store 0 {}).map (·, none)
    else some ({ p with state := .escape }, some (.append c))
  | .bracket =>
    if c = chr '[' then some ({ p with state := .attr }, none)
    else some ({ p with state := .escape }, some (.append c))
  | .attr =>
    if isDigit c then
      (p.store p.index ⟨int ((p.stack p.index).value * 10 + (c.toNat - 48)), false⟩).map (·, none)
    else
      let index := if p.index < 8 then p.index + 1 else p.index
      (ANSIParser.store { p with index := index } index {}).map (·.endValue c)
  | .endValue => some (p.endValue c)

/-- The flags and characters of `TerminalConfig` that are read -/
structure Termios where
  ixon : Bool
  igncr : Bool
  icrnl : Bool
  inlcr : Bool
  isig : Bool
  icanon : Bool
  echo : Bool
  vstop : Byte
  vstart : Byte
  vintr : Byte
  vquit : Byte
  vsusp : Byte
  verase : Byte
  vkill : Byte

/-- The configuration of a new terminal -/
def Termios.default : Termios where
  ixon := true
  igncr := false
  icrnl := false
  inlcr := false
  isig := true
  icanon := true
  echo := true
  vstop := 0x13
  vstart := 0x11
  vintr := 0x03
  vquit := 0x1C
  vsusp := 0x1A
  verase := 0x7F
  vkill := 0x15

/-- `ProcessControlCharacter`. Signals and flow control do not change the screen. -/
def Termios.processControlCharacter (t : Termios) (c : Byte) : Option Op :=
  let ccheck (c v : Byte) : Bool := v ≠ 0 ∧ v = c
  if t.ixon && (ccheck c t.vstop || ccheck c t.vstart) then none
  else if t.isig && (ccheck c t.vintr || ccheck c t.vquit || ccheck c t.vsusp) then none
  else if c = chr '\r' ∧ t.igncr then none
  else
    let c :=
      if c = chr '\r' ∧ t.icrnl then chr '\n'
      else if c = chr '\n' ∧ t.inlcr then chr '\r' else c
    if t.icanon && ccheck c t.verase then some .erase
    else if t.icanon && ccheck c t.vkill then none
    else if t.echo then some (.append c) else none

/-- The bytes that `Process` gives to `ProcessControlCharacter` -/
def Termios.diverts (t : Termios) (c : Byte) : Bool :=
  t.icanon ∧ 0 < c.toNat ∧ c.toNat ≤ 0x1F ∧ c ≠ 0x1B

structure Terminal where
  config : Termios
  parser : ANSIParser
  screen : Screen

def Terminal.input (t : Terminal) (c : Byte) : Option (ANSIParser × Option Op) :=
  if t.config.diverts c then some (t.parser, t.config.processControlCharacter c)
  else t.parser.next c

/-- `VirtualTerminal::Process` -/
def Terminal.process (t : Terminal) (c : Byte) : Option Terminal :=
  (t.input c).bind fun r =>
    (r.2.elim (some t.screen) t.screen.perform).map fun s => { t with parser := r.1, screen := s }

/-- `VirtualTerminal::VirtualTerminal` -/
def Terminal.new (size : Size) (config : Termios) : Terminal :=
  ⟨config, {}, { size with cells := fun _ => ⟨0, {}⟩, x := 0, y := 0, attr := {} }⟩

/-! ## Section 3: Sequences -/

/-- A byte for the parser, with the calls so far. -/
def feed (t : Termios) (r : ANSIParser × List Op) (c : Byte) : Option (ANSIParser × List Op) :=
  if t.diverts c then some r else (r.1.next c).map fun q => (q.1, r.2 ++ q.2.toList)

/-- The byte ends an eighth parameter. -/
def EndsEighth (t : Termios) (r : ANSIParser × List Op) (c : Byte) : Prop :=
  t.diverts c = false ∧ r.1.state = .attr ∧ r.1.index = 7 ∧ isDigit c = false

theorem next_iff {p : ANSIParser} (c : Byte) (h : p.index < 8) :
    (∃ q, p.next c = some q ∧ q.1.index < 8) ↔
      ¬ (p.state = .attr ∧ p.index = 7 ∧ isDigit c = false) := by
  have hend : ∀ q : ANSIParser, (q.endValue c).1.index = q.index := by
    intro q
    unfold ANSIParser.endValue
    split <;> rfl
  unfold ANSIParser.next
  split
  · next hstate => split <;> simp [ANSIParser.store, hstate, h]
  · next hstate => split <;> simp [hstate, h]
  · next hstate =>
    split
    · next hdigit => simp [ANSIParser.store, hdigit, h]
    · next hdigit =>
      simp only [ANSIParser.store]
      by_cases hseven : p.index = 7
      · simp [hseven, hstate, hdigit]
      · simp [hseven, hend, show p.index + 1 < 8 by omega]
  · next hstate => simp [hstate, hend, h]

theorem feed_iff (t : Termios) (r : ANSIParser × List Op) (c : Byte) (h : r.1.index < 8) :
    (∃ r', feed t r c = some r' ∧ r'.1.index < 8) ↔ ¬ EndsEighth t r c := by
  unfold feed EndsEighth
  cases t.diverts c with
  | true => simpa using h
  | false => simpa using next_iff c h

/-- The digits of a parameter. -/
abbrev Digits := List (Fin 10)

def value (v : Nat) (d : Digits) : Nat := d.foldl (fun v x => v * 10 + x) v

def argument (d : Digits) : ANSIArgument := ⟨value 0 d, d.isEmpty⟩

def digitByte (x : Fin 10) : Byte := BitVec.ofNat 8 (48 + x)

/-- `p1 ; ... ; pk F` -/
def parameters (f : Byte) : Digits → List Digits → List Byte
  | d, [] => d.map digitByte ++ [f]
  | d, e :: ds => d.map digitByte ++ chr ';' :: parameters f e ds

/-- The handler is called once, with the parameters, and the parser is at the ground state. -/
def SequenceRight (t : Termios) (p : ANSIParser) (f : Byte) (h : Handler) (d : Digits)
    (ds : List Digits) : Prop :=
  ∃ q stack, (0x1B :: chr '[' :: parameters f d ds).foldlM (feed t) (p, []) =
      some (q, [.csi h stack (min (ds.length + 1) 8)]) ∧ q.state = .escape ∧
    (List.range (min (ds.length + 1) 8)).map stack = ((d :: ds).map argument).take 8

theorem feed_of_not_control (t : Termios) (r : ANSIParser × List Op) {c : Byte}
    (h : 0x1F < c.toNat ∨ c = 0x1B) :
    feed t r c = (r.1.next c).map fun q => (q.1, r.2 ++ q.2.toList) := by
  have hdiverts : t.diverts c = false := by
    simp only [Termios.diverts, decide_eq_false_iff_not]
    rintro ⟨-, -, hle, hne⟩
    rcases h with hlt | heq
    · omega
    · exact hne heq
  rw [feed, hdiverts]
  rfl

theorem digitByte_spec : ∀ x, (digitByte x).toNat = 48 + x ∧ isDigit (digitByte x) = true := by
  decide

theorem int_of_lt {v : Int} (h0 : 0 ≤ v) (h : v < 2 ^ 31) : int v = v :=
  Int.bmod_eq_of_le (by omega) (by omega)

theorem le_value (d : Digits) : ∀ v, v ≤ value v d := by
  induction d with
  | nil => exact fun v => le_rfl
  | cons x d ih => exact fun v => le_trans (by omega) (ih (v * 10 + x))

/-- The digits of a parameter go to its entry. -/
theorem feed_digits (t : Termios) (ops : List Op) (d : Digits) : ∀ (p : ANSIParser) (v : Nat)
    (e : Bool), p.state = .attr → p.index < 8 → p.stack p.index = ⟨v, e⟩ → value v d < 2 ^ 31 →
    (d.map digitByte).foldlM (feed t) (p, ops) =
      some ({ p with stack := update p.stack p.index ⟨value v d, e && d.isEmpty⟩ }, ops) := by
  induction d with
  | nil =>
    intro p v e _ _ hstack _
    simp [value, ← hstack]
  | cons x d ih =>
    intro p v e hstate hindex hstack hlt
    have hx := digitByte_spec x
    have hle : v * 10 + x ≤ value v (x :: d) := le_value d _
    have hvalue : int ((v : Int) * 10 + ((digitByte x).toNat - 48)) = (v * 10 + x : Nat) := by
      rw [hx.1, int_of_lt] <;> push_cast <;> omega
    have hnext : feed t (p, ops) (digitByte x) =
        some ({ p with stack := update p.stack p.index ⟨(v * 10 + x : Nat), false⟩ }, ops) := by
      rw [feed_of_not_control t _ (.inl (by omega))]
      simp [ANSIParser.next, hstate, hx.2, ANSIParser.store, hindex, hstack, ← hvalue]
    rw [List.map_cons, List.foldlM_cons, hnext]
    refine (ih { p with stack := update p.stack p.index ⟨(v * 10 + x : Nat), false⟩ } (v * 10 + x)
      false hstate hindex (update_self ..) hlt).trans ?_
    simp [value]

/-- The parser after a parameter. -/
def ANSIParser.after (p : ANSIParser) (d : Digits) : ANSIParser :=
  { p with
    index := p.index + 1
    stack := update (update p.stack p.index (argument d)) (p.index + 1) {} }

theorem range_after (p : ANSIParser) (d : Digits) :
    (List.range (p.index + 1)).map (p.after d).stack =
      (List.range p.index).map p.stack ++ [argument d] := by
  rw [List.range_succ, List.map_append]
  congr 1
  · refine List.map_congr_left fun i hi => ?_
    rw [List.mem_range] at hi
    simp only [ANSIParser.after]
    rw [update_of_ne (by omega), update_of_ne (by omega)]
  · simp [ANSIParser.after]

/-- A parameter and the byte after it. -/
theorem feed_parameter (t : Termios) {p : ANSIParser} {d : Digits} {c : Byte} (rest : List Byte)
    (hp : p.state = .attr ∧ p.index < 8 ∧ p.stack p.index = {}) (hvalue : value 0 d < 2 ^ 31)
    (hc : 0x1F < c.toNat ∧ isDigit c = false) :
    (d.map digitByte ++ c :: rest).foldlM (feed t) (p, []) =
      if p.index = 7 then none else rest.foldlM (feed t)
        (((p.after d).endValue c).1, ((p.after d).endValue c).2.toList) := by
  obtain ⟨hstate, hindex, hstack⟩ := hp
  rw [List.foldlM_append, feed_digits t [] d p 0 true hstate hindex hstack hvalue]
  simp only [Option.bind_eq_bind, Option.bind_some, List.foldlM_cons]
  rw [feed_of_not_control t _ (.inl hc.1)]
  by_cases hseven : p.index = 7
  · simp [ANSIParser.next, ANSIParser.store, hstate, hc.2, hseven]
  · simp [ANSIParser.next, ANSIParser.store, hstate, hc.2, hseven, hindex,
      ANSIParser.after, argument]
    rw [if_pos (by omega), Option.bind_some]

theorem handlerOf_spec : ∀ f : Byte, (handlerOf f).isSome → 0x1F < f.toNat ∧
    isDigit f = false ∧ f ≠ chr ';' := by
  decide +kernel

theorem feed_parameters (t : Termios) {f : Byte} {h : Handler} (hf : handlerOf f = some h)
    (ds : List Digits) : ∀ (d : Digits) (p : ANSIParser),
    p.state = .attr ∧ p.index < 8 ∧ p.stack p.index = {} → (∀ e ∈ d :: ds, value 0 e < 2 ^ 31) →
    if 8 ≤ p.index + ds.length + 1 then (parameters f d ds).foldlM (feed t) (p, []) = none
    else ∃ q stack, (parameters f d ds).foldlM (feed t) (p, []) =
        some (q, [.csi h stack (p.index + ds.length + 1)]) ∧ q.state = .escape ∧
      (List.range (p.index + ds.length + 1)).map stack =
        (List.range p.index).map p.stack ++ (d :: ds).map argument := by
  obtain ⟨hcontrol, hdigit, hne⟩ := handlerOf_spec f (by simp [hf])
  induction ds with
  | nil =>
    intro d p hp hvalues
    rw [parameters, feed_parameter t [] hp (hvalues d (by simp)) ⟨hcontrol, hdigit⟩]
    split
    · next hfull => rw [if_pos (by simp at hfull; omega)]
    · next hroom =>
      rw [if_neg (by simp at hroom; omega), ANSIParser.endValue, if_neg hne, hf]
      exact ⟨_, _, rfl, rfl, range_after p d⟩
  | cons e ds ih =>
    intro d p hp hvalues
    rw [List.forall_mem_cons] at hvalues
    rw [parameters, feed_parameter t _ hp hvalues.1 ⟨by decide, by decide⟩]
    by_cases hseven : p.index = 7
    · rw [if_pos (by simp; omega), if_pos hseven]
    · rw [if_neg hseven, ANSIParser.endValue, if_pos rfl]
      -- the next parameter has the entry that the end of this one has reset
      have hrest := ih e { p.after d with state := .attr }
        ⟨rfl, show p.index + 1 < 8 by omega, update_self ..⟩ hvalues.2
      have hlength : (p.after d).index + ds.length + 1 = p.index + (e :: ds).length + 1 := by
        simp [ANSIParser.after]
        omega
      simp only [hlength] at hrest
      split at hrest
      · next hfull => rw [if_pos hfull]; exact hrest
      · next hroom =>
        obtain ⟨q, stack, hrun, hstate, hstack⟩ := hrest
        rw [if_neg hroom]
        refine ⟨q, stack, hrun, hstate, hstack.trans ?_⟩
        rw [show (List.range (p.after d).index).map (p.after d).stack = _ from range_after p d]
        simp

/-- For every configuration and stream: a store is outside of `Stack` exactly if a byte ends an
    eighth parameter. And for every parser at the ground state, whatever an earlier sequence
    left in it, every sequence of parameters below `2 ^ 31` and every last byte with a handler:
    it is parsed as it should be exactly if there are fewer than eight parameters. -/
theorem sequence_right_iff (t : Termios) (stream : List Byte) (p : ANSIParser) (f : Byte)
    (h : Handler) (d : Digits) (ds : List Digits) (hground : p.state = .escape)
    (hvalues : ∀ e ∈ d :: ds, value 0 e < 2 ^ 31) (hf : handlerOf f = some h) :
    ((∀ earlier, earlier <+: stream →
        ∃ r, earlier.foldlM (feed t) ({}, []) = some r ∧ r.1.index < 8) ↔
      ∀ earlier c r, earlier ++ [c] <+: stream → earlier.foldlM (feed t) ({}, []) = some r →
        ¬ EndsEighth t r c) ∧
    (SequenceRight t p f h d ds ↔ (d :: ds).length < 8) := by
  refine ⟨along_iff (feed_iff t) (by decide) stream, ?_⟩
  have hstart : (0x1B :: chr '[' :: parameters f d ds).foldlM (feed t) (p, []) =
      (parameters f d ds).foldlM (feed t) (⟨.attr, update p.stack 0 {}, 0⟩, []) := by
    simp only [List.foldlM_cons]
    rw [feed_of_not_control t _ (.inr rfl)]
    simp only [ANSIParser.next, hground, ANSIParser.store]
    rw [if_pos trivial]
    simp only [Nat.zero_lt_succ, if_true, Option.map_some, Option.bind_eq_bind, Option.bind_some]
    rw [feed_of_not_control t _ (.inl (by decide))]
    rfl
  have hrun := feed_parameters t hf ds d ⟨.attr, update p.stack 0 {}, 0⟩
    ⟨rfl, Nat.zero_lt_succ 7, update_self 0 _ p.stack⟩ hvalues
  simp only [Nat.zero_add] at hrun
  rw [SequenceRight, hstart]
  constructor
  · rintro ⟨q, stack, hsome, -⟩
    by_contra hlong
    rw [if_pos (by simpa using hlong)] at hrun
    rw [hrun] at hsome
    cases hsome
  · intro hshort
    rw [List.length_cons] at hshort
    rw [if_neg (by omega)] at hrun
    rw [Nat.min_eq_left (by omega), List.take_of_length_le (by simpa using by omega)]
    simpa using hrun

theorem sequence_right_iff_cup : handlerOf (chr 'H') = some .cup ∧
    SequenceRight Termios.default {} (chr 'H') .cup [1, 2] [[]] :=
  ⟨rfl, (sequence_right_iff Termios.default [] {} (chr 'H') .cup [1, 2] [[]] rfl (by decide)
    rfl).2.mpr (by decide)⟩

/-- The last byte of `ESC [ 1 ; 1 ; 1 ; 1 ; 1 ; 1 ; 1 ; 1 m` resets the entry behind the array. -/
theorem sequence_stores_outside :
    ((0x1B :: chr '[' :: parameters (chr 'm') [1] (List.replicate 7 [1])).foldlM
      (feed Termios.default) ({}, [])).isNone = true := by
  decide

end Fennix.Tty
