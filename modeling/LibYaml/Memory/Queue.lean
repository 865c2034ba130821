import LibYaml.Memory.Cells

/-!
# The queues of tokens and events

A queue is a block with four pointers, and grows by doubling or by sliding its contents to the
front.  Between head and tail stands the list that the operations on the queue say.
-/

namespace LibYaml

/-- A queue in a block that starts at `start` and ends at `stop`; pointers are addresses. -/
structure Queue (α : Type) where
  start : Nat
  head : Nat
  tail : Nat
  stop : Nat
  cells : Cells α

namespace Queue

variable {α : Type}

/-! ## The operations -/

section Operations

-- The number of bytes of an element.
variable (size : Nat)

/-- The cell that an address in the block points to. -/
def cell (q : Queue α) (address : Nat) : Nat := (address - q.start) / size

/-- The offsets of the pointers, where they are in order. -/
def span (q : Queue α) : Option (Nat × Nat × Nat) :=
  if q.start = 0 then if q.head = 0 ∧ q.tail = 0 ∧ q.stop = 0 then some (0, 0, 0) else none
  else if q.head < q.start ∨ q.head > q.tail ∨ q.tail > q.stop ∨ q.stop < q.start then none
  else some (q.head - q.start, q.tail - q.start, q.stop - q.start)

/-- Double the block where it is full. -/
def reallocate (realloc : Nat → Option Nat) (q : Queue α) (headOffset tailOffset span : Nat) :
    Except Fault (Queue α) :=
  if q.start = q.head ∧ q.tail = q.stop then
    let newSize := saturatingMul span 2
    if newSize < span then .error (.reported .memory)
    else
      match realloc newSize with
      | none => .error (.reported .memory)
      | some newStart => .ok {
          start := newStart
          head := newStart + headOffset
          tail := newStart + tailOffset
          stop := newStart + newSize
          cells := q.cells.resize (newSize / size) }
  else .ok q

/-- The block with the contents at its front. -/
def slidCells (q : Queue α) (movedSize : Nat) : Except Fault (Cells α) :=
  if q.head ≠ q.tail then q.cells.move 0 (q.cell size q.head) (movedSize / size) else .ok q.cells

/-- Move the contents to the front where the tail is at the end. -/
def slide (q : Queue α) : Except Fault (Queue α) :=
  if q.tail = q.stop then do
    let movedSize := q.tail - q.head
    let cells ← q.slidCells size movedSize
    return { q with cells := cells, head := q.start, tail := saturatingAdd q.start movedSize }
  else .ok q

def extendOrMove (realloc : Nat → Option Nat) (q : Queue α) : Except Fault (Queue α) :=
  match q.span with
  | none => .error (.reported .memory)
  | some (headOffset, tailOffset, span) => do
    let q ← q.reallocate size realloc headOffset tailOffset span
    q.slide size

/-- What comes before an element is stored: the queue is extended where its tail is at its end. -/
def makeRoom (realloc : Nat → Option Nat) (q : Queue α) : Except Fault (Queue α) :=
  if q.tail = q.stop then q.extendOrMove size realloc else .ok q

/-- `ENQUEUE`. -/
def enqueue (realloc : Nat → Option Nat) (value : α) (q : Queue α) : Except Fault (Queue α) := do
  let q ← q.makeRoom size realloc
  let cells ← q.cells.write (q.cell size q.tail) value
  return { q with cells := cells, tail := wrappingAdd q.tail size }

/-- `DEQUEUE`. -/
def dequeue (q : Queue α) : Except Fault (α × Queue α) := do
  let value ← q.cells.read (q.cell size q.head)
  return (value, { q with head := wrappingAdd q.head size })

/-- `QUEUE_INSERT`. -/
def insert (realloc : Nat → Option Nat) (index : Nat) (value : α) (q : Queue α) :
    Except Fault (Queue α) := do
  let q ← q.makeRoom size realloc
  let place := wrappingAdd q.head (index * size)
  let moved := saturatingMul ((q.tail - q.head) / size - index) size
  let cells ← q.cells.move (q.cell size (wrappingAdd place size)) (q.cell size place) (moved / size)
  let cells ← cells.write (q.cell size place) value
  return { q with cells := cells, tail := wrappingAdd q.tail size }

/-- `QUEUE_INIT` with room for `n` elements. -/
def init (start n : Nat) : Queue α :=
  ⟨start, start, start, start + n * size, List.replicate n none⟩

end Operations

/-! ## The list in the queue -/

section Refinement

variable {size : Nat} {realloc : Nat → Option Nat} {q q' : Queue α} {xs : List α} {x value : α}

/-- `q` has room for something and holds `xs`. -/
structure Holds (size : Nat) (q : Queue α) (xs : List α) : Prop where
  intro ::
  split : ∃ before after : Cells α, q.cells = before ++ (xs.map some ++ after) ∧
    q.head = q.start + before.length * size ∧ q.tail = q.head + xs.length * size ∧
    q.stop = q.tail + after.length * size
  room : q.cells ≠ []
  start : 0 < q.start
  stop : q.stop ≤ addressMax

theorem cell_start (hs : 0 < size) (n : Nat) : q.cell size (q.start + n * size) = n := by
  unfold cell
  rw [Nat.add_sub_cancel_left, Nat.mul_div_cancel _ hs]

theorem Holds.span (h : Holds size q xs) :
    q.span = some (q.head - q.start, q.tail - q.start, q.stop - q.start) := by
  obtain ⟨before, after, -, hhead, htail, hstop⟩ := h.split
  have := h.start
  unfold Queue.span
  rw [if_neg (by omega), if_neg (by omega)]

/-- A full queue is doubled. -/
theorem Holds.reallocate (hs : 0 < size) (hr : Allocates realloc) (h : Holds size q xs)
    (hhead : q.start = q.head) (htail : q.tail = q.stop) :
    Results (Exhausted realloc) (q.reallocate size realloc (q.head - q.start) (q.tail - q.start) (q.stop - q.start))
      fun q' => Holds size q' xs ∧ q'.tail < q'.stop := by
  obtain ⟨before, after, hcells, hq, ht, hstop⟩ := h.split
  have hbefore : before = [] := by
    have : before.length * size = 0 := by omega
    exact List.eq_nil_of_length_eq_zero ((Nat.mul_eq_zero.mp this).resolve_right (by omega))
  have hafter : after = [] := by
    have : after.length * size = 0 := by omega
    exact List.eq_nil_of_length_eq_zero ((Nat.mul_eq_zero.mp this).resolve_right (by omega))
  subst hbefore hafter
  have hcells : q.cells = xs.map some := by simpa using hcells
  have hne : 0 < xs.length := List.length_pos_iff.mpr fun hx => h.room (by rw [hcells, hx]; rfl)
  have hspan : q.stop - q.start = xs.length * size := by omega
  have hpos : 0 < xs.length * size := Nat.mul_pos hne hs
  have hmax := h.stop
  have hlimit := addressMax_lt
  unfold Queue.reallocate
  rw [if_pos ⟨hhead, htail⟩, hspan]
  by_cases hle : xs.length * size * 2 ≤ usizeMax
  · rw [saturatingMul_of_le hle]
    simp only []
    rw [if_neg (by omega)]
    cases ha : realloc (xs.length * size * 2) with
    | none => exact .inr ⟨rfl, _, ha⟩
    | some start =>
      obtain ⟨hstart, hfit⟩ := hr _ _ ha
      have hcount : xs.length * size * 2 / size = xs.length + xs.length := by
        rw [Nat.mul_right_comm, Nat.mul_div_cancel _ hs]
        omega
      refine .inl ⟨_, rfl, ⟨⟨[], List.replicate xs.length none, ?_, ?_, ?_, ?_⟩, ?_, hstart, hfit⟩, ?_⟩
      · rw [hcells, hcount, Cells.resize_grow (by simp)]
        simp
      · simp only [List.length_nil]
        omega
      · simp only []
        omega
      · simp only [List.length_replicate]
        omega
      · refine List.ne_nil_of_length_pos ?_
        rw [hcells, hcount, Cells.resize_grow (by simp)]
        simp
        omega
      · change start + (q.tail - q.start) < start + xs.length * size * 2
        omega
  · -- no block has the size that is asked for
    have hsat : saturatingMul (xs.length * size) 2 = usizeMax := Nat.min_eq_right (by omega)
    rw [hsat]
    simp only []
    rw [if_neg (by omega)]
    cases ha : realloc usizeMax with
    | none => exact .inr ⟨rfl, _, ha⟩
    | some start =>
      have := hr _ _ ha
      omega

/-- A queue with its tail at the end and its head further in slides to the front. -/
theorem Holds.slide (hs : 0 < size) (h : Holds size q xs) (hhead : q.start ≠ q.head) (htail : q.tail = q.stop) :
    ∃ q', q.slide size = .ok q' ∧ Holds size q' xs ∧ q'.tail < q'.stop := by
  obtain ⟨before, after, hcells, hq, ht, hstop⟩ := h.split
  have hafter : after = [] := by
    have : after.length * size = 0 := by omega
    exact List.eq_nil_of_length_eq_zero ((Nat.mul_eq_zero.mp this).resolve_right (by omega))
  subst hafter
  have hmoved : q.tail - q.head = xs.length * size := by omega
  have hmax := h.stop
  have hlimit := addressMax_lt
  have hbefore : 0 < before.length * size := by omega
  obtain ⟨rest, hrest, hlen⟩ : ∃ rest, q.slidCells size (xs.length * size) = .ok (xs.map some ++ rest) ∧
      rest.length = before.length := by
    unfold Queue.slidCells
    by_cases hne : q.head = q.tail
    · have hx : xs = [] := by
        have : xs.length * size = 0 := by omega
        exact List.eq_nil_of_length_eq_zero ((Nat.mul_eq_zero.mp this).resolve_right (by omega))
      subst hx
      refine ⟨before, ?_, rfl⟩
      rw [if_neg (not_not.mpr hne), hcells]
      simp
    · obtain ⟨rest, hm, hl⟩ := Cells.move_front before (xs.map some) []
      refine ⟨rest, ?_, hl⟩
      rw [if_pos hne, hq, cell_start hs, Nat.mul_div_cancel _ hs, hcells, ← hm, List.length_map]
  have hroom : xs.map some ++ rest ≠ [] := by
    have : 0 < before.length := Nat.pos_of_ne_zero fun h0 => by simp [h0] at hbefore
    refine List.ne_nil_of_length_pos ?_
    rw [List.length_append, hlen]
    omega
  unfold Queue.slide
  rw [if_pos htail, hmoved]
  simp only []
  rw [hrest]
  refine ⟨_, rfl, ⟨⟨[], rest, rfl, ?_, ?_, ?_⟩, hroom, h.start, h.stop⟩, ?_⟩
  · simp
  · exact saturatingAdd_of_le (by omega)
  · simp only [saturatingAdd_of_le (show q.start + xs.length * size ≤ usizeMax by omega), hlen]
    omega
  · simp only [saturatingAdd_of_le (show q.start + xs.length * size ≤ usizeMax by omega)]
    omega

/-- There is room behind the tail when an element is stored. -/
theorem Holds.makeRoom (hs : 0 < size) (hr : Allocates realloc) (h : Holds size q xs) :
    Results (Exhausted realloc) (q.makeRoom size realloc) fun q' => Holds size q' xs ∧ q'.tail < q'.stop := by
  have hle : q.tail ≤ q.stop := by
    obtain ⟨_, _, -, -, -, hstop⟩ := h.split
    omega
  unfold Queue.makeRoom
  by_cases htail : q.tail = q.stop
  · rw [if_pos htail, Queue.extendOrMove, h.span]
    simp only []
    by_cases hhead : q.start = q.head
    · refine (h.reallocate hs hr hhead htail).bind fun q' hq' => .inl ⟨q', ?_, hq'⟩
      exact if_neg (Nat.ne_of_lt hq'.2)
    · obtain ⟨q', hslide, hq'⟩ := h.slide hs hhead htail
      refine .inl ⟨q', ?_, hq'⟩
      unfold Queue.reallocate
      rw [if_neg fun hc => hhead hc.1]
      exact hslide
  · rw [if_neg htail]
    exact .inl ⟨q, rfl, h, by omega⟩

theorem Holds.enqueue (hs : 0 < size) (hr : Allocates realloc) (h : Holds size q xs) (value : α) :
    Results (Exhausted realloc) (q.enqueue size realloc value) fun q' => Holds size q' (xs ++ [value]) := by
  refine (h.makeRoom hs hr).bind fun q ⟨h, hlt⟩ => ?_
  obtain ⟨before, after, hcells, hhead, htail, hstop⟩ := h.split
  have hmax := h.stop
  have hlimit := addressMax_lt
  cases after with
  | nil => simp at hstop; omega
  | cons c after =>
    have htail' : q.tail = q.start + (before ++ xs.map some).length * size := by
      rw [htail, hhead, List.length_append, List.length_map, Nat.add_mul, Nat.add_assoc]
    have hstop' : q.stop = q.tail + size + after.length * size := by
      rw [hstop, List.length_cons, Nat.add_mul]
      omega
    have hwrite : q.cells.write (q.cell size q.tail) value
        = .ok (before ++ ((xs ++ [value]).map some ++ after)) := by
      rw [htail', cell_start hs, hcells, ← List.append_assoc, Cells.write_at]
      simp
    rw [hwrite]
    refine .inl ⟨_, rfl, ⟨before, after, rfl, hhead, ?_, ?_⟩, by simp, h.start, hmax⟩
    · simp only [wrappingAdd_of_le (show q.tail + size ≤ usizeMax by omega), List.length_append,
        List.length_singleton, Nat.add_mul, Nat.one_mul]
      omega
    · simp only [wrappingAdd_of_le (show q.tail + size ≤ usizeMax by omega)]
      omega

theorem Holds.dequeue (hs : 0 < size) (h : Holds size q (x :: xs)) :
    ∃ q', q.dequeue size = .ok (x, q') ∧ Holds size q' xs := by
  obtain ⟨before, after, hcells, hhead, htail, hstop⟩ := h.split
  have hmax := h.stop
  have hlimit := addressMax_lt
  have hread : q.cells.read (q.cell size q.head) = .ok x := by
    rw [hhead, cell_start hs, hcells]
    exact Cells.read_at _
  have hlen : (x :: xs).length * size = size + xs.length * size := by
    rw [List.length_cons, Nat.add_mul]
    omega
  have hwrap : wrappingAdd q.head size = q.head + size := wrappingAdd_of_le (by omega)
  unfold Queue.dequeue
  rw [hread]
  refine ⟨_, rfl, ⟨before ++ [some x], after, ?_, ?_, ?_, hstop⟩, h.room, h.start, hmax⟩
  · simp [hcells]
  · simp only [hwrap, List.length_append, List.length_singleton, Nat.add_mul, Nat.one_mul]
    omega
  · simp only [hwrap]
    omega

theorem insertIdx_length {bs : List α} : ∀ as : List α, (as ++ bs).insertIdx as.length value = as ++ value :: bs
  | [] => rfl
  | a :: as => congrArg (a :: ·) (insertIdx_length as)

theorem Holds.insert (hs : 0 < size) (hr : Allocates realloc) (h : Holds size q xs) {index : Nat}
    (hi : index ≤ xs.length) (value : α) :
    Results (Exhausted realloc) (q.insert size realloc index value) fun q' => Holds size q' (xs.insertIdx index value) := by
  refine (h.makeRoom hs hr).bind fun q ⟨h, hlt⟩ => ?_
  obtain ⟨before, after, hcells, hhead, htail, hstop⟩ := h.split
  have hmax := h.stop
  have hlimit := addressMax_lt
  cases after with
  | nil => simp at hstop; omega
  | cons c after =>
    obtain ⟨as, bs, rfl, rfl⟩ : ∃ as bs, xs = as ++ bs ∧ as.length = index :=
      ⟨xs.take index, xs.drop index, (List.take_append_drop _ _).symm, List.length_take_of_le hi⟩
    have hinsert : (as ++ bs).insertIdx as.length value = as ++ value :: bs := insertIdx_length as
    have hlen : (as ++ bs).length * size = as.length * size + bs.length * size := by
      rw [List.length_append, Nat.add_mul]
    have hstop' : q.stop = q.tail + size + after.length * size := by
      rw [hstop, List.length_cons, Nat.add_mul]
      omega
    have hplace : wrappingAdd q.head (as.length * size) = q.start + (before ++ as.map some).length * size := by
      rw [wrappingAdd_of_le (by omega), hhead, List.length_append, List.length_map, Nat.add_mul, Nat.add_assoc]
    have hnext : wrappingAdd (q.start + (before ++ as.map some).length * size) size
        = q.start + ((before ++ as.map some).length + 1) * size := by
      rw [wrappingAdd_of_le, Nat.add_mul, Nat.one_mul, Nat.add_assoc]
      rw [List.length_append, List.length_map, Nat.add_mul]
      omega
    have hcount : (q.tail - q.head) / size - as.length = bs.length := by
      have : q.tail - q.head = (as.length + bs.length) * size := by
        rw [Nat.add_mul]
        omega
      rw [this, Nat.mul_div_cancel _ hs, Nat.add_sub_cancel_left]
    have hmoved : saturatingMul bs.length size = bs.length * size := saturatingMul_of_le (by omega)
    have hcells : q.cells = (before ++ as.map some) ++ (bs.map some ++ c :: after) := by
      rw [hcells, List.map_append]
      simp
    obtain ⟨d, hmove⟩ := Cells.move_up (before ++ as.map some) (bs.map some) after c
    rw [List.length_map] at hmove
    have hwrap : wrappingAdd q.tail size = q.tail + size := wrappingAdd_of_le (by omega)
    simp only [hplace, hnext, hcount, hmoved, cell_start hs, Nat.mul_div_cancel _ hs, hcells, hwrap]
    have hwrite : Cells.write ((before ++ as.map some) ++ d :: (bs.map some ++ after))
        (before ++ as.map some).length value
          = .ok (before ++ (((as ++ bs).insertIdx as.length value).map some ++ after)) := by
      rw [Cells.write_at, hinsert]
      simp
    rw [hmove]
    refine .inl ⟨{ q with
      cells := before ++ (((as ++ bs).insertIdx as.length value).map some ++ after), tail := q.tail + size },
      ?_, ⟨before, after, rfl, hhead, ?_, ?_⟩, by simp [hinsert], h.start, hmax⟩
    · change (Cells.write ((before ++ as.map some) ++ d :: (bs.map some ++ after))
        (before ++ as.map some).length value >>= _) = _
      rw [hwrite]
      rfl
    · rw [hinsert]
      simp only [List.length_append, List.length_cons, Nat.add_mul, Nat.one_mul] at htail ⊢
      omega
    · simp only []
      omega

/-! ## Runs -/

/-- An operation on a queue. -/
inductive Op (α : Type)
  | enqueue (value : α)
  | dequeue
  | insert (index : Nat) (value : α)

/-- An operation with the element it takes out. -/
def Op.run (size : Nat) (realloc : Nat → Option Nat) (q : Queue α) : Op α → Except Fault (Option α × Queue α)
  | .enqueue value => do return (none, ← q.enqueue size realloc value)
  | .dequeue => do
    let (value, q) ← q.dequeue size
    return (some value, q)
  | .insert index value => do return (none, ← q.insert size realloc index value)

/-- The operation on a list, where it is called for. -/
def Op.onList : Op α → List α → Option (Option α × List α)
  | .enqueue value, xs => some (none, xs ++ [value])
  | .dequeue, [] => none
  | .dequeue, x :: xs => some (some x, xs)
  | .insert index value, xs => if index ≤ xs.length then some (none, xs.insertIdx index value) else none

/-- A run of operations with the elements they take out. -/
def runs (size : Nat) (realloc : Nat → Option Nat) :
    List (Op α) → Queue α → Except Fault (List (Option α) × Queue α)
  | [], q => .ok ([], q)
  | op :: ops, q => do
    let (out, q) ← op.run size realloc q
    let (outs, q) ← runs size realloc ops q
    return (out :: outs, q)

def runsOnList : List (Op α) → List α → Option (List (Option α) × List α)
  | [], xs => some ([], xs)
  | op :: ops, xs => do
    let (out, xs) ← op.onList xs
    let (outs, xs) ← runsOnList ops xs
    return (out :: outs, xs)

theorem Holds.run (hs : 0 < size) (hr : Allocates realloc) (h : Holds size q xs) (op : Op α) {out : Option α}
    {ys : List α} (hl : op.onList xs = some (out, ys)) :
    Results (Exhausted realloc) (op.run size realloc q) fun result => result.1 = out ∧ Holds size result.2 ys := by
  cases op with
  | enqueue value =>
    cases hl
    exact (h.enqueue hs hr value).bind fun q' hq' => .inl ⟨_, rfl, rfl, hq'⟩
  | dequeue =>
    cases xs with
    | nil => cases hl
    | cons x xs =>
      cases hl
      obtain ⟨q', hq, hq'⟩ := h.dequeue hs
      refine .inl ⟨(some x, q'), ?_, rfl, hq'⟩
      simp only [Op.run, hq]
      rfl
  | insert index value =>
    by_cases hi : index ≤ xs.length
    · rw [Op.onList, if_pos hi] at hl
      cases hl
      exact (h.insert hs hr hi value).bind fun q' hq' => .inl ⟨_, rfl, rfl, hq'⟩
    · rw [Op.onList, if_neg hi] at hl
      cases hl

/-- A run keeps the queue to the list. -/
theorem Holds.runs (hs : 0 < size) (hr : Allocates realloc) : ∀ (ops : List (Op α)) {q : Queue α} {xs ys : List α}
    {outs : List (Option α)}, Holds size q xs → runsOnList ops xs = some (outs, ys) →
      Results (Exhausted realloc) (Queue.runs size realloc ops q) fun result => result.1 = outs ∧ Holds size result.2 ys
  | [], _, _, _, _, h, hl => by
    cases hl
    exact .inl ⟨_, rfl, rfl, h⟩
  | op :: ops, q, xs, ys, outs, h, hl => by
    obtain ⟨⟨out, xs'⟩, hop, hl⟩ := Option.bind_eq_some_iff.mp hl
    obtain ⟨⟨outs', ys'⟩, hops, hl⟩ := Option.bind_eq_some_iff.mp hl
    cases hl
    refine (h.run hs hr op hop).bind fun result hresult => ?_
    obtain ⟨out', q'⟩ := result
    obtain ⟨rfl, hq'⟩ := hresult
    refine (Holds.runs hs hr ops hq' hops).bind fun result hresult => .inl ⟨_, rfl, ?_⟩
    exact ⟨congrArg (out' :: ·) hresult.1, hresult.2⟩

end Refinement

end Queue

end LibYaml
