import LibYaml.Emitter.Stacks

/-!
# Pops from the emitter's stacks

Every state past the first entry of a collection will pop an indent, and leave a flow level if the
collection is a flow one; the stacks are `Sound` when they hold enough for the current state and
for all that are waiting.  A step that succeeds keeps them so.  One that fails at a node it cannot
write leaves them too short, but from then on no step gets past that node (`Stuck`).  What is left
are writes that fail in the middle of a step: `Covered` excludes those that leave the stacks short
with the event still to be written.
-/

namespace LibYaml

namespace Emitter

open Fallible EStateM

variable {σ : Type} {k k' : Stacks} {next : EmitterState}

/-! ## Stacks that hold enough -/

section Sound

structure Sound (k : Stacks) : Prop where
  depth : (k.state :: k.states).countP pastFirst ≤ k.depth
  flow : ((k.state :: k.states).countP inFlow : Int) ≤ k.flowLevel
  bottom : ∀ x ∈ k.states.getLast?, x = .documentEnd
  nonempty : pastFirst k.state = true ∨ atFirst k.state = true → k.states ≠ []

/-- The stacks hold enough for `next` and all the states below it. -/
structure Room (next : EmitterState) (k : Stacks) : Prop where
  depth : (next :: k.states).countP pastFirst ≤ k.depth
  flow : ((next :: k.states).countP inFlow : Int) ≤ k.flowLevel
  bottom : ∀ x ∈ (next :: k.states).getLast?, x = .documentEnd

theorem Sound.flow_nonneg (h : Sound k) : 0 ≤ k.flowLevel :=
  Int.le_trans (Int.natCast_nonneg _) h.flow

theorem not_pastFirst_of_atFirst {state : EmitterState} (h : atFirst state = true) :
    pastFirst state = false := by
  cases state <;> simp_all [atFirst, pastFirst]

theorem Room.popped (h : Room next k) : Sound { k with state := next } where
  depth := h.depth
  flow := h.flow
  bottom x hx := by
    rcases hk : k.states with _ | ⟨y, ys⟩
    · simp [hk] at hx
    · refine h.bottom x ?_
      simpa [hk] using hx
  nonempty hn hk := by
    have : next = .documentEnd := h.bottom next (by simp [show k.states = [] from hk])
    simp [this, pastFirst, atFirst] at hn

theorem Room.pushed {state : EmitterState} (h : Room next k) (hs : pastFirst state = false) :
    Sound { k.pushed next with state := state } where
  depth := by simpa [Stacks.pushed, List.countP_cons, hs] using h.depth
  flow := by simpa [Stacks.pushed, List.countP_cons, inFlow, hs] using h.flow
  bottom := h.bottom
  nonempty _ := List.cons_ne_nil _ _

theorem Room.entered (h : Room next k) (hk : Entered next k k') : Sound k' := by
  rcases hk with rfl | ⟨first, hf, rfl⟩
  · exact h.popped
  · exact h.pushed (not_pastFirst_of_atFirst hf)

theorem Sound.settled {state : EmitterState} (h : Sound k) (hp : pastFirst k.state = false)
    (h1 : pastFirst state = false) (h2 : atFirst state = false) :
    Sound { k with state := state } where
  depth := by simpa [List.countP_cons, hp, h1] using h.depth
  flow := by simpa [List.countP_cons, inFlow, hp, h1] using h.flow
  bottom := h.bottom
  nonempty hs := by simp [h1, h2] at hs

/-- The collection a state is in gives back what the state needed. -/
theorem Sound.closed {next : EmitterState} {states : List EmitterState} {d : Nat} {f : Int}
    {es : List Event} (h : Sound k) (hk : k.states = next :: states)
    (hd : k.depth ≤ d + if pastFirst k.state then 1 else 0)
    (hf : k.flowLevel ≤ f + if inFlow k.state then 1 else 0) :
    Sound ⟨next, states, d, f, es⟩ := by
  refine Room.popped (k := ⟨k.state, states, d, f, es⟩) ⟨?_, ?_, hk ▸ h.bottom⟩
  · have := h.depth
    rw [List.countP_cons, hk] at this
    simp only []
    omega
  · have := h.flow
    rw [List.countP_cons, hk] at this
    simp only []
    split at hf <;> simp_all <;> omega

theorem Sound.opened {flow : Bool} (h : Sound k) : Sound (k.opened flow) where
  depth := Nat.le_succ_of_le h.depth
  flow := by
    have := h.flow
    simp only [Stacks.opened]
    split <;> omega
  bottom := h.bottom
  nonempty := h.nonempty

theorem Sound.more (h : Sound k) (n : Nat) : Sound { k with depth := k.depth + n } where
  depth := Nat.le_add_right_of_le h.depth
  flow := h.flow
  bottom := h.bottom
  nonempty := h.nonempty

end Sound

/-! ## Events that no step gets past -/

section Unfit

/-- The event is no node, or a scalar with neither a tag nor an implicit flag. -/
def Unfit (event : Event) : Prop :=
  match event.data with
  | .alias _ | .sequenceStart _ _ _ _ | .mappingStart _ _ _ _ => False
  | .scalar _ tag _ plainImplicit quotedImplicit _ =>
    tag = none ∧ plainImplicit = false ∧ quotedImplicit = false
  | _ => True

/-- The first event of the queue neither ends the current collection nor fits into it. -/
structure Stuck (k : Stacks) : Prop where
  pastFirst : pastFirst k.state = true
  flow_nonneg : 0 ≤ k.flowLevel
  head : ∃ e es, k.events = e :: es ∧ some e.type ≠ endEvent k.state ∧ Unfit e

end Unfit

/-! ## One step -/

section Step

variable [WriteHandler σ] {s : Emitter σ} {event : Event}

/-- The handler takes what `x` writes. -/
def Accepts {α : Type} (x : EmitM σ α) (s : Emitter σ) : Prop :=
  ∀ fault t, x s = .error fault t → ¬WriteFails fault

/-- The states between collections only move on to one another. -/
def Settles (x : EmitM σ Unit) : Prop :=
  ∀ k, Holds (stacksOf · = k) x
    (fun _ s => ∃ state, pastFirst state = false ∧ atFirst state = false
      ∧ stacksOf s = { k with state := state })
    (fun fault s => stacksOf s = k ∧ Harmless fault)

omit [WriteHandler σ] in
theorem Settles.bind {α : Type} {x : EmitM σ α} {y : α → EmitM σ Unit} (hx : Keeps stacksOf Harmless x)
    (hy : ∀ a, Settles (y a)) : Settles (x >>= y) :=
  fun k => hx.andThen (fun _ _ hs hf => ⟨hs, hf⟩) fun a => hy a k

omit [WriteHandler σ] in
theorem Settles.refuse (problem : String) : Settles (emitterError problem : EmitM σ Unit) :=
  fun _ => .throw fun _ hs => ⟨hs, nofun⟩

end Step

/-! ## Runs -/

section Run

variable [WriteHandler σ] {s : Emitter σ}

def enqueue (event : Event) (s : Emitter σ) : Emitter σ := { s with events := s.events ++ [event] }

/-- What a call leaves behind. -/
def Settled : EStateM.Result Fault (Emitter σ) Unit → Prop
  | .ok _ t => Sound (stacksOf t) ∨ Stuck (stacksOf t)
  | .error fault t => Harmless fault ∧
    (returns fault = true → Sound (stacksOf t) ∨ Stuck (stacksOf t))

end Run

/-! ## A write that fails at a closing bracket -/

section Unwritten

/-- An anchor of `n` letters. -/
def letters (n : Nat) : Bytes := List.replicate n (octet 'a')

/-- The emitter in front of a flow sequence's first entry, an alias. -/
def beforeAlias (h : List Bool) (anchor : Bytes) : Emitter (List Bool) where
  handler := h
  encoding := .utf8
  bestIndent := 2
  bestWidth := 80
  lineBreak := .ln
  states := [.documentEnd]
  state := .flowSequenceFirstItem
  events := [plainEvent (.alias anchor), plainEvent .sequenceEnd]
  tagDirectives := defaultTagDirectives
  indent := -1
  rootContext := true
  whitespace := true
  indention := true

/-- The emitter once the sequence and its entry are queued. -/
def queued (h : List Bool) (n : Nat) : Emitter (List Bool) :=
  { beforeAlias h (letters n) with
    states := []
    state := .documentContent
    rootContext := false
    events := [plainEvent (.sequenceStart none none true .flow), plainEvent (.alias (letters n))] }

end Unwritten

end Emitter

end LibYaml
