import Mathlib.Logic.Function.Basic
import LibYaml.Memory.Cells
import LibYaml.Scanner.Input

/-!
# The strings of the scanner

A string grows in a block that is kept zeroed behind its pointer.  So it is always terminated, and
its first byte says whether it is empty and whether it begins with a line feed.
-/

namespace LibYaml

open EStateM (Result)

/-- A string in a block from `start` to `stop`; pointers are addresses. -/
structure StringBuffer where
  start : Nat
  pointer : Nat
  stop : Nat
  cells : Cells UInt8

namespace StringBuffer

/-- `INITIAL_STRING_SIZE`. -/
def initialSize : Nat := 16

/-- `STRING_INIT` with the block at `start`. -/
def init (start : Nat) : StringBuffer :=
  ⟨start, start, start + initialSize, List.replicate initialSize (some 0)⟩

/-- How much of the block is used, and how large it is. -/
def byteSpan (b : StringBuffer) : Option (Nat × Nat) :=
  if b.start = 0 then if b.pointer = 0 ∧ b.stop = 0 then some (0, 0) else none
  else if b.pointer < b.start ∨ b.pointer > b.stop ∨ b.stop < b.start then none
  else some (b.pointer - b.start, b.stop - b.start)

/-- Double the block, and zero its second half. -/
def extend (realloc : Nat → Option Nat) (b : StringBuffer) : Except Fault StringBuffer :=
  match b.byteSpan with
  | none => .error (.reported .memory)
  | some (used, capacity) =>
    let newSize := saturatingMul capacity 2
    if newSize < capacity then .error (.reported .memory)
    else
      match realloc newSize with
      | none => .error (.reported .memory)
      | some newStart => do
        let cells ← (b.cells.resize newSize).fill capacity (List.replicate capacity 0)
        return ⟨newStart, newStart + used, newStart + newSize, cells⟩

/-- `STRING_EXTEND`. -/
def makeRoom (realloc : Nat → Option Nat) (b : StringBuffer) : Except Fault StringBuffer :=
  if b.stop ≠ 0 ∧ wrappingAdd b.pointer 5 ≥ b.stop then b.extend realloc else .ok b

/-- Store a byte at the pointer and move it on. -/
def put (value : UInt8) (b : StringBuffer) : Except Fault StringBuffer := do
  let cells ← b.cells.write (b.pointer - b.start) value
  return { b with cells := cells, pointer := wrappingAdd b.pointer 1 }

def puts : Bytes → StringBuffer → Except Fault StringBuffer
  | [], b => .ok b
  | value :: values, b => do
    let b ← b.put value
    puts values b

/-- Bytes appended after one `STRING_EXTEND`. -/
def append (realloc : Nat → Option Nat) (values : Bytes) (b : StringBuffer) : Except Fault StringBuffer := do
  let b ← b.makeRoom realloc
  b.puts values

/-- `READ` from a buffer that shows `p`. -/
def read (realloc : Nat → Option Nat) (p : View) : StringBuffer → Except Fault StringBuffer :=
  append realloc (character p)

/-- What `READ_LINE` appends. -/
def lineText (p : View) : Bytes :=
  if isCrlf p then [0x0A]
  else if checkAt p '\r' 0 || checkAt p '\n' 0 then [0x0A]
  else if p 0 == 0xC2 && p 1 == 0x85 then [0x0A]
  else if p 0 == 0xE2 && p 1 == 0x80 && (p 2 == 0xA8 || p 2 == 0xA9) then [p 0, p 1, p 2]
  else []

/-- `READ_LINE` from a buffer that shows `p`. -/
def readLine (realloc : Nat → Option Nat) (p : View) : StringBuffer → Except Fault StringBuffer :=
  append realloc (lineText p)

/-- The loop of `yaml_string_join` that makes room for `length` bytes and one more. -/
def joinRoom (realloc : Nat → Option Nat) (length : Nat) : Nat → StringBuffer → Except Fault StringBuffer
  | 0, _ => .error .outOfFuel
  | fuel + 1, b =>
    match b.byteSpan with
    | none => .error (.reported .memory)
    | some (used, capacity) =>
      if length < capacity - used then .ok b
      else do
        let b' ← b.extend realloc
        if b'.stop - b'.start ≤ b.stop - b.start then .error (.reported .memory)
        else joinRoom realloc length fuel b'

/-- `JOIN`: the first string with the second behind it, and the second with its pointer moved back. -/
def join (realloc : Nat → Option Nat) (a b : StringBuffer) :
    Except Fault (StringBuffer × StringBuffer) :=
  if b.start = b.pointer then .ok (a, { b with pointer := b.start })
  else if b.start = 0 ∨ b.pointer < b.start then .error (.reported .memory)
  else do
    let length := b.pointer - b.start
    let a ← joinRoom realloc length (length + 2) a
    let values ← b.cells.readFirst length
    let cells ← a.cells.fill (a.pointer - a.start) values
    return ({ a with cells := cells, pointer := a.pointer + length }, { b with pointer := b.start })

/-- `CLEAR`. -/
def clear (b : StringBuffer) : Except Fault StringBuffer :=
  if b.start = 0 then .ok { b with pointer := b.start }
  else do
    let cells ← b.cells.fill 0 (List.replicate (b.stop - b.start) 0)
    return { b with cells := cells, pointer := b.start }

/-- `JOIN` and the `CLEAR` that follows it. -/
def joinClear (realloc : Nat → Option Nat) (a b : StringBuffer) :
    Except Fault (StringBuffer × StringBuffer) := do
  let (a, b) ← join realloc a b
  return (a, ← b.clear)

/-- The byte at the start, which the scanner tests. -/
def first (b : StringBuffer) : Except Fault UInt8 := b.cells.read 0

/-! ## One string -/

section Strings

variable {realloc : Nat → Option Nat} {b : StringBuffer} {text values : Bytes} {n : Nat}

/-- `b` holds `text`, with `n` zero bytes behind it. -/
structure Zeroed (b : StringBuffer) (text : Bytes) (n : Nat) : Prop where
  cells : b.cells = text.map some ++ List.replicate n (some 0)
  pointer : b.pointer = b.start + text.length
  stop : b.stop = b.pointer + n
  start : 0 < b.start
  limit : b.stop ≤ addressMax
  large : initialSize ≤ text.length + n

/-- `b` holds `text` and a zero byte behind it at least. -/
def Terminated (b : StringBuffer) (text : Bytes) : Prop := ∃ n, 0 < n ∧ Zeroed b text n

namespace Zeroed

theorem length_cells (h : Zeroed b text n) : b.cells.length = b.stop - b.start := by
  have h1 := h.pointer
  have h2 := h.stop
  rw [h.cells, List.length_append, List.length_map, List.length_replicate]
  omega

theorem byteSpan (h : Zeroed b text n) : b.byteSpan = some (text.length, text.length + n) := by
  have h1 := h.pointer
  have h2 := h.stop
  have h3 := h.start
  unfold StringBuffer.byteSpan
  rw [if_neg (by omega), if_neg (by omega), Option.some.injEq, Prod.mk.injEq]
  omega

/-- The block is doubled with its text. -/
theorem extend (hr : Allocates realloc) (h : Zeroed b text n) :
    Results (Exhausted realloc) (b.extend realloc) fun b' => Zeroed b' text (n + (text.length + n)) := by
  have hcells := h.length_cells
  have h1 := h.pointer
  have h2 := h.stop
  have h3 := h.limit
  have h4 := h.large
  have hpos : 0 < initialSize := by decide
  have hlimit := addressMax_lt
  unfold StringBuffer.extend
  rw [h.byteSpan]
  simp only []
  by_cases hle : (text.length + n) * 2 ≤ usizeMax
  · rw [saturatingMul_of_le hle, if_neg (by omega)]
    cases ha : realloc ((text.length + n) * 2) with
    | none => exact .inr ⟨rfl, _, ha⟩
    | some start =>
      obtain ⟨hstart, hfit⟩ := hr _ _ ha
      have hlen : (text.map some ++ List.replicate n (some (0 : UInt8))).length = text.length + n := by simp
      have hgrow : b.cells.resize ((text.length + n) * 2)
          = (text.map some ++ List.replicate n (some 0)) ++ (List.replicate (text.length + n) none ++ []) := by
        rw [h.cells, Cells.resize_grow (by omega), hlen, List.append_nil]
        congr 2
        omega
      have hfill := Cells.fill_at (text.map some ++ List.replicate n (some (0 : UInt8)))
        (List.replicate (text.length + n) none) [] (List.replicate (text.length + n) 0) (by simp)
      rw [hlen] at hfill
      simp only [hgrow, hfill]
      refine .inl ⟨_, rfl, ?_, rfl, ?_, hstart, hfit, ?_⟩
      · rw [List.append_nil, List.map_replicate, List.append_assoc, List.replicate_append_replicate]
      · simp only []
        omega
      · omega
  · have hsat : saturatingMul (text.length + n) 2 = usizeMax := Nat.min_eq_right (by omega)
    rw [hsat, if_neg (by omega)]
    cases ha : realloc usizeMax with
    | none => exact .inr ⟨rfl, _, ha⟩
    | some start =>
      have := hr _ _ ha
      omega

/-- Behind `STRING_EXTEND` six bytes are free. -/
theorem makeRoom (hr : Allocates realloc) (hn : 0 < n) (h : Zeroed b text n) :
    Results (Exhausted realloc) (b.makeRoom realloc) fun b' => ∃ n', 5 < n' ∧ Zeroed b' text n' := by
  have h1 := h.pointer
  have h2 := h.stop
  have h3 := h.start
  have h4 := h.large
  have h5 := h.limit
  have hsize : initialSize = 16 := rfl
  have hlimit := addressMax_lt
  unfold StringBuffer.makeRoom
  rw [wrappingAdd_of_le (by omega)]
  split
  · refine (h.extend hr).weaken fun b' hb' => ⟨_, ?_, hb'⟩
    omega
  · exact .inl ⟨b, rfl, n, by omega, h⟩

theorem put (h : Zeroed b text (n + 1)) (value : UInt8) :
    ∃ b', b.put value = .ok b' ∧ Zeroed b' (text ++ [value]) n := by
  have h1 := h.pointer
  have h2 := h.stop
  have h5 := h.limit
  have hlimit := addressMax_lt
  have hwrite : b.cells.write (b.pointer - b.start) value
      = .ok ((text ++ [value]).map some ++ List.replicate n (some 0)) := by
    have hat : b.pointer - b.start = (text.map some).length := by
      rw [List.length_map]
      omega
    rw [hat, h.cells, List.replicate_succ, Cells.write_at]
    simp
  have hlen : (text ++ [value]).length = text.length + 1 := by simp
  unfold StringBuffer.put
  rw [hwrite, wrappingAdd_of_le (by omega)]
  refine ⟨_, rfl, rfl, ?_, ?_, h.start, h.limit, ?_⟩
  · simp only [hlen]
    omega
  · simp only []
    omega
  · have := h.large
    omega

theorem puts : ∀ {values : Bytes} {b : StringBuffer} {text : Bytes} {n : Nat}, Zeroed b text (n + values.length) →
    ∃ b', b.puts values = .ok b' ∧ Zeroed b' (text ++ values) n
  | [], b, text, n, h => ⟨b, rfl, (List.append_nil text).symm ▸ h⟩
  | value :: values, b, text, n, h => by
    obtain ⟨b₁, h₁, hb₁⟩ := put (show Zeroed b text ((n + values.length) + 1) from h) value
    obtain ⟨b₂, h₂, hb₂⟩ := puts hb₁
    refine ⟨b₂, ?_, ?_⟩
    · unfold StringBuffer.puts
      rw [h₁]
      exact h₂
    · rwa [List.append_assoc] at hb₂

end Zeroed

/-- Up to five bytes are appended after one `STRING_EXTEND`. -/
theorem Terminated.append (hr : Allocates realloc) (h : Terminated b text) (hv : values.length ≤ 5) :
    Results (Exhausted realloc) (b.append realloc values) fun b' => Terminated b' (text ++ values) := by
  obtain ⟨n, hn, h⟩ := h
  refine (h.makeRoom hr hn).bind fun b₁ ⟨n₁, hn₁, h₁⟩ => ?_
  obtain ⟨k, rfl⟩ : ∃ k, n₁ = k + values.length := ⟨n₁ - values.length, by omega⟩
  obtain ⟨b₂, hb₂, h₂⟩ := h₁.puts
  exact .inl ⟨b₂, hb₂, k, by omega, h₂⟩

theorem Zeroed.joinRoom (hr : Allocates realloc) {length : Nat} : ∀ {fuel : Nat} {b : StringBuffer} {n : Nat},
    Zeroed b text n → length + 2 ≤ fuel + n → 0 < fuel →
      Results (Exhausted realloc) (b.joinRoom realloc length fuel) fun b' => ∃ n', length < n' ∧ Zeroed b' text n'
  | fuel + 1, b, n, h, hfuel, _ => by
    have h1 := h.pointer
    have h2 := h.stop
    have h4 := h.large
    have hsize : initialSize = 16 := rfl
    have hused : text.length + n - text.length = n := Nat.add_sub_cancel_left ..
    unfold StringBuffer.joinRoom
    rw [h.byteSpan]
    simp only [hused]
    by_cases hroom : length < n
    · rw [if_pos hroom]
      exact .inl ⟨b, rfl, n, hroom, h⟩
    · rw [if_neg hroom]
      refine (h.extend hr).bind fun b₁ h₁ => ?_
      have hgrown : ¬b₁.stop - b₁.start ≤ b.stop - b.start := by
        have h1' := h₁.pointer
        have h2' := h₁.stop
        omega
      rw [if_neg hgrown]
      exact h₁.joinRoom hr (by omega) (by omega)

/-- `CLEAR` leaves an empty string, wherever the pointer stood. -/
theorem Zeroed.clear (h : Zeroed b text n) (pointer : Nat) :
    ∃ b', ({ b with pointer := pointer } : StringBuffer).clear = .ok b' ∧ Zeroed b' [] (text.length + n) := by
  have h1 := h.pointer
  have h2 := h.stop
  have h3 := h.start
  have hlen : b.stop - b.start = text.length + n := by omega
  have hcells : b.cells = [] ++ ((text.map some ++ List.replicate n (some 0)) ++ []) := by
    rw [h.cells, List.nil_append, List.append_nil]
  have hfill := Cells.fill_at [] (text.map some ++ List.replicate n (some (0 : UInt8))) []
    (List.replicate (text.length + n) 0) (by simp)
  rw [← hcells, List.length_nil] at hfill
  unfold StringBuffer.clear
  rw [if_neg (by simp only []; omega)]
  simp only [hlen]
  rw [hfill]
  refine ⟨_, rfl, ?_, rfl, ?_, h3, h.limit, ?_⟩
  · simp
  · simp only []
    omega
  · have := h.large
    simp
    omega

/-- The second string is appended to the first, and emptied. -/
theorem Terminated.joinClear (hr : Allocates realloc) {a : StringBuffer} {text' : Bytes} (ha : Terminated a text)
    (hb : Terminated b text') :
    Results (Exhausted realloc) (joinClear realloc a b) fun result =>
      Terminated result.1 (text ++ text') ∧ Terminated result.2 [] := by
  obtain ⟨n, hn, hb⟩ := hb
  have h1 := hb.pointer
  have h3 := hb.start
  obtain ⟨b', hclear, hb'⟩ := hb.clear b.start
  have hempty : Terminated b' [] := ⟨_, Nat.add_pos_right _ hn, hb'⟩
  have hjoin : Results (Exhausted realloc) (join realloc a b) fun result =>
      Terminated result.1 (text ++ text') ∧ result.2 = { b with pointer := b.start } := by
    unfold join
    by_cases hsame : b.start = b.pointer
    · have htext : text' = [] := List.eq_nil_of_length_eq_zero (by omega)
      subst htext
      rw [if_pos hsame, List.append_nil]
      exact .inl ⟨_, rfl, ha, rfl⟩
    · have hlen : b.pointer - b.start = text'.length := by omega
      obtain ⟨k, hk, ha⟩ := ha
      rw [if_neg hsame, if_neg (by omega)]
      simp only [hlen]
      refine (ha.joinRoom hr (by omega) (by omega)).bind fun a₁ ⟨k₁, hk₁, ha₁⟩ => ?_
      obtain ⟨l, rfl⟩ : ∃ l, k₁ = text'.length + l := ⟨k₁ - text'.length, by omega⟩
      have hread : b.cells.readFirst text'.length = .ok text' := by
        rw [hb.cells]
        exact Cells.readFirst_values text'
      have hat : a₁.pointer - a₁.start = (text.map some).length := by
        rw [List.length_map, ha₁.pointer]
        omega
      have hfill : a₁.cells.fill (a₁.pointer - a₁.start) text'
          = .ok (text.map some ++ (text'.map some ++ List.replicate l (some 0))) := by
        rw [hat, ha₁.cells, List.replicate_add, Cells.fill_at _ _ _ _ (by simp)]
      have hstop := ha₁.stop
      have hpointer := ha₁.pointer
      rw [hread]
      refine .inl ⟨({ a₁ with
        cells := text.map some ++ (text'.map some ++ List.replicate l (some 0))
        pointer := a₁.pointer + text'.length }, { b with pointer := b.start }), ?_, ⟨l, by omega, ?_, ?_, ?_,
          ha₁.start, ha₁.limit, ?_⟩, rfl⟩
      · change (Cells.fill _ _ _ >>= _) = _
        rw [hfill]
        rfl
      · simp
      · simp only [List.length_append]
        omega
      · simp only []
        omega
      · have := ha₁.large
        simp only [List.length_append]
        omega
  refine hjoin.bind fun result ⟨h, hresult⟩ => ?_
  obtain ⟨a', b₁⟩ := result
  obtain rfl : b₁ = { b with pointer := b.start } := hresult
  refine .inl ⟨(a', b'), ?_, h, hempty⟩
  simp only [hclear]
  rfl

/-- The test of the first byte finds that of the text, or the zero byte behind an empty one. -/
theorem Terminated.first (h : Terminated b text) : b.first = .ok (text.headD 0) := by
  obtain ⟨n, hn, h⟩ := h
  obtain ⟨k, rfl⟩ : ∃ k, n = k + 1 := ⟨n - 1, by omega⟩
  unfold StringBuffer.first
  rw [h.cells]
  cases text with
  | nil => exact Cells.read_at []
  | cons c cs => exact Cells.read_at []

end Strings

/-! ## Runs over several strings -/

/-- A step of a scanner whose strings have names. -/
inductive Op (ι : Type)
  | read (i : ι) (p : View)
  | readLine (i : ι) (p : View)
  | append (i : ι) (value : UInt8)
  | decode (i : ι) (octets : Bytes)
  | join (i j : ι)
  | clear (i : ι)

section Runs

variable {ι : Type} [DecidableEq ι]

/-- What the code keeps to: an escape has up to four octets, and no string is joined to itself. -/
def Op.Allowed : Op ι → Prop
  | .decode _ octets => octets.length ≤ 4
  | .join i j => i ≠ j
  | _ => True

def Op.run (realloc : ι → Nat → Option Nat) (b : ι → StringBuffer) : Op ι → Except Fault (ι → StringBuffer)
  | .read i p => do return Function.update b i (← (b i).read (realloc i) p)
  | .readLine i p => do return Function.update b i (← (b i).readLine (realloc i) p)
  | .append i value => do return Function.update b i (← (b i).append (realloc i) [value])
  | .decode i octets => do return Function.update b i (← (b i).append (realloc i) octets)
  | .join i j => do
    let (a, c) ← joinClear (realloc i) (b i) (b j)
    return Function.update (Function.update b i a) j c
  | .clear i => do return Function.update b i (← (b i).clear)

def runs (realloc : ι → Nat → Option Nat) : List (Op ι) → (ι → StringBuffer) → Except Fault (ι → StringBuffer)
  | [], b => .ok b
  | op :: ops, b => do
    let b ← op.run realloc b
    runs realloc ops b

variable {realloc : ι → Nat → Option Nat} {b : ι → StringBuffer} {text : ι → Bytes}

end Runs

end StringBuffer

namespace Scanner

open Fallible

variable {ι : Type} [Input ι] {s : Scanner ι}

theorem look_view {α β : Type} (f : View → α) (x : α → ScanM ι β) :
    (look f >>= x) s = x (f (Input.view s.input)) s := rfl

/-- `READ` appends to a string of the scanner what it stores in the string's block. -/
theorem read_appends (string : Bytes) :
    ∃ t, read string s = .ok (string ++ character (Input.view s.input)) t := by
  unfold read
  rw [look_view]
  exact ⟨_, rfl⟩

theorem readLine_appends (string : Bytes) :
    ∃ t, readLine string s = .ok (string ++ StringBuffer.lineText (Input.view s.input)) t := by
  unfold readLine StringBuffer.lineText
  rw [look_view]
  split
  · exact ⟨_, rfl⟩
  · rw [look_view]
    split
    · exact ⟨_, rfl⟩
    · rw [look_view]
      split
      · exact ⟨_, rfl⟩
      · rw [look_view]
        split
        · exact ⟨_, rfl⟩
        · exact ⟨s, congrArg (Result.ok · s) (List.append_nil string).symm⟩

end Scanner

end LibYaml
