import LibYaml.Brackets
import LibYaml.Scanner.Walking

/-!
# Keys, blocks and flow levels

Between two tokens the open blocks are a chain of columns, there is a place for a simple key on
every flow level, the tokens stand in the order of their marks, and the candidates among the keys
point at tokens that are still queued, those of deeper levels behind those of outer ones
(`Settled`).  Every operation on these structures keeps that, so none reads below a stack or writes
beside the queue.
-/

namespace LibYaml

namespace Scanner

open Fallible Brackets

variable {ι : Type}

/-! ## Candidates -/

/-- Every key that may still turn out to be one has `P`. -/
def Candidates (P : SimpleKey → Prop) (keys : List SimpleKey) : Prop :=
  ∀ key ∈ keys, key.possible = true → P key

/-- The candidates of deeper levels stand behind those of outer ones. -/
def Nested (keys : List SimpleKey) : Prop :=
  keys.Pairwise fun upper lower => upper.possible = true → lower.possible = true →
    lower.tokenNumber < upper.tokenNumber ∧ lower.mark.Before upper.mark

/-- Some keys are no longer candidates; nothing else has changed. -/
def Cleared : List SimpleKey → List SimpleKey → Prop :=
  List.Forall₂ fun key key' => key' = key ∨ key' = { key with possible := false }

section Candidates

variable {P Q : SimpleKey → Prop} {keys keys' : List SimpleKey} {key : SimpleKey}

theorem Candidates.mono (h : Candidates P keys) (hPQ : ∀ key, P key → Q key) :
    Candidates Q keys :=
  fun key hk hp => hPQ key (h key hk hp)

theorem Candidates.and (h : Candidates P keys) (h' : Candidates Q keys) :
    Candidates (fun key => P key ∧ Q key) keys :=
  fun key hk hp => ⟨h key hk hp, h' key hk hp⟩

theorem Candidates.tail (h : Candidates P (key :: keys)) : Candidates P keys :=
  fun key hk => h key (List.mem_cons_of_mem _ hk)

theorem Candidates.cons (hkey : key.possible = true → P key) (h : Candidates P keys) :
    Candidates P (key :: keys) := by
  rintro _ (_ | ⟨_, hk⟩) hp
  · exact hkey hp
  · exact h _ hk hp

theorem Cleared.refl : ∀ keys, Cleared keys keys
  | [] => .nil
  | _ :: keys => .cons (.inl rfl) (Cleared.refl keys)

theorem Cleared.length (hc : Cleared keys keys') : keys'.length = keys.length :=
  hc.length_eq.symm

theorem Cleared.mem {key' : SimpleKey} (hc : Cleared keys keys') (hk : key' ∈ keys')
    (hp : key'.possible = true) : key' ∈ keys := by
  induction hc with
  | nil => exact hk
  | @cons key _ keys keys' h _ ih =>
    rcases hk with _ | ⟨_, hk⟩
    · rcases h with rfl | rfl
      · exact List.mem_cons_self
      · cases hp
    · exact List.mem_cons_of_mem _ (ih hk)

theorem Cleared.candidates (hc : Cleared keys keys') (h : Candidates P keys) :
    Candidates P keys' :=
  fun key hk hp => h key (hc.mem hk hp) hp

theorem Cleared.nested (hc : Cleared keys keys') (h : Nested keys) : Nested keys' := by
  induction hc with
  | nil => exact h
  | @cons key key' keys keys' hk hc ih =>
    obtain ⟨hn, h⟩ := List.pairwise_cons.mp h
    refine List.pairwise_cons.mpr ⟨fun lower hl hp hp' => ?_, ih h⟩
    rcases hk with rfl | rfl
    · exact hn lower (Cleared.mem hc hl hp') hp hp'
    · cases hp

theorem staleKeys_cleared (mark : Mark) : ∀ keys, Cleared keys (staleKeys mark keys).1
  | [] => .nil
  | key :: keys => by
    have ih := staleKeys_cleared mark keys
    simp only [staleKeys]
    split
    · rename_i heq
      rw [heq] at ih
      exact .cons (.inl rfl) ih
    · rename_i heq
      rw [heq] at ih
      split_ifs
      · exact .cons (.inl rfl) ih
      · exact .cons (.inr rfl) ih
      · exact .cons (.inl rfl) ih

/-- No candidate left is stale, unless a required one was. -/
theorem staleKeys_fresh (mark : Mark) : ∀ keys, (staleKeys mark keys).2 = none →
    Candidates (SimpleKey.isStale mark · = false) (staleKeys mark keys).1
  | [], _ => fun _ hk => absurd hk List.not_mem_nil
  | key :: keys, h => by
    have ih := staleKeys_fresh mark keys
    simp only [staleKeys] at h ⊢
    split at h
    · cases h
    · rename_i heq
      rw [heq] at ih
      have ih := ih rfl
      cases hs : SimpleKey.isStale mark key with
      | false => exact ih.cons fun _ => hs
      | true =>
        cases hr : key.required with
        | false => exact ih.cons fun hp => by cases hp
        | true => simp [hs, hr] at h

end Candidates

/-! ## The state between two tokens -/

/-- What a token does to the open blocks. -/
def bracket : TokenType → Option DyckStep
  | .blockSequenceStart | .blockMappingStart => some .U
  | .blockEnd => some .D
  | _ => none

def brackets (tokens : List Token) : List DyckStep := tokens.filterMap fun t => bracket t.type

/-- The number the next token to be queued will have. -/
def nextNumber (s : Scanner ι) : Nat := s.tokensParsed + s.tokens.length

/-- A key that points at a queued token or at the one to be queued next. -/
def Numbered (s : Scanner ι) (key : SimpleKey) : Prop :=
  s.tokensParsed ≤ key.tokenNumber ∧ key.tokenNumber ≤ nextNumber s

/-- Tokens in the order of their marks. -/
structure Ordered (tokens : List Token) : Prop where
  sorted : tokens.Pairwise fun t u => t.startMark.Before u.startMark
  extents : ∀ t ∈ tokens, t.startMark.Before t.endMark

/-- A key that parts the tokens as its number does. -/
def Placed (tokens : List Token) (key : SimpleKey) : Prop :=
  (∀ t ∈ tokens.take key.tokenNumber, t.startMark.Before key.mark) ∧
    ∀ t ∈ tokens.drop key.tokenNumber, key.mark.Before t.startMark

/-- What holds once `delivered` have been delivered, whatever the scanner is doing. -/
structure Sound (delivered : List Token) (s : Scanner ι) : Prop where
  started : s.streamStartProduced = true
  columns : (s.indent :: s.indents).Pairwise (· > ·)
  bottom : (s.indent :: s.indents).getLast? = some (-1)
  levels : s.simpleKeys.length = s.flowLevel + 1
  numbered : Candidates (Numbered s) s.simpleKeys
  nested : Nested s.simpleKeys
  parsed : s.tokensParsed = delivered.length
  blocks : Opened s.indents.length (brackets (delivered ++ s.tokens))
  ordered : Ordered (delivered ++ s.tokens)
  placed : Candidates (Placed (delivered ++ s.tokens)) s.simpleKeys

/-- A simple key at `m` may be followed by its ':' at `w`. -/
def Reaches (m w : Mark) : Prop := m.line = w.line ∧ w.index ≤ m.index + 1024

/-- A simple key that can still get its ':' starts in the line of the ':' and not far from it. -/
theorem reaches_of_fresh {key : SimpleKey} {m : Mark} (hp : key.possible = true)
    (hs : SimpleKey.isStale m key = false) (hm : key.mark.Before m) : Reaches key.mark m := by
  unfold SimpleKey.isStale at hs
  rw [hp, Bool.true_and, Bool.or_eq_false_iff, decide_eq_false_iff_not, decide_eq_false_iff_not] at hs
  have := hm.line
  exact ⟨by omega, by omega⟩

/-- A KEY token that was put in for a simple key: unlike that of a '?' it has no extent. -/
def isSimple (token : Token) : Prop := token.type = .key ∧ token.startMark = token.endMark

/-- Simple keys are near their ':', but for one at a mark that is `due` to get it. -/
def Near (due : Mark → Prop) (tokens : List Token) : Prop :=
  ∀ token ∈ tokens, isSimple token → due token.startMark ∨
    ∃ value ∈ tokens, value.type = .value ∧ Reaches token.startMark value.startMark

/-- What holds while the scanner is at a token that starts at `w`. -/
structure Running (due : Mark → Prop) (w : Mark) (delivered : List Token) (s : Scanner ι) : Prop
    extends Sound delivered s where
  near : Near due (delivered ++ s.tokens)
  behind : ∀ t ∈ delivered ++ s.tokens, t.startMark.Before w
  keys : Candidates (·.mark.Before w) s.simpleKeys
  up : w.Before s.mark

/-- What holds between two tokens. -/
structure Settled (delivered : List Token) (s : Scanner ι) : Prop
    extends Running (fun _ => False) s.mark delivered s where
  queued : Candidates (·.tokenNumber < nextNumber s) s.simpleKeys

/-- What holds of the candidates even where memory has run out. -/
structure Keyed (s : Scanner ι) : Prop where
  numbered : Candidates (Numbered s) s.simpleKeys
  nested : Nested s.simpleKeys

/-- How the scanner fails: unless memory has run out everything is in order. -/
def Failed (delivered : List Token) (e : Fault) (s : Scanner ι) : Prop :=
  e = .outOfFuel ∨ ∃ problem, e = .reported problem ∧ Keyed s ∧ (problem ≠ .memory → Sound delivered s)

/-! ## Tokens in order -/

section Ordered

variable {a b tokens : List Token} {token : Token} {key : SimpleKey}

theorem Ordered.insert (h : Ordered (a ++ b)) (ha : ∀ t ∈ a, t.startMark.Before token.startMark)
    (hb : ∀ t ∈ b, token.startMark.Before t.startMark) (ht : token.startMark.Before token.endMark) :
    Ordered (a ++ token :: b) := by
  obtain ⟨hs, he⟩ := h
  obtain ⟨hsa, hsb, hab⟩ := List.pairwise_append.mp hs
  refine ⟨List.pairwise_append.mpr ⟨hsa, List.pairwise_cons.mpr ⟨hb, hsb⟩, ?_⟩, ?_⟩
  · intro t hta u hu
    rcases List.mem_cons.mp hu with rfl | hu
    · exact ha t hta
    · exact hab t hta u hu
  · intro t hmem
    rcases List.mem_append.mp hmem with hta | htb
    · exact he t (List.mem_append_left _ hta)
    · rcases List.mem_cons.mp htb with rfl | htb
      · exact ht
      · exact he t (List.mem_append_right _ htb)

theorem Placed.insert (h : Placed (a ++ b) key) (hn : key.tokenNumber ≤ a.length)
    (ht : key.mark.Before token.startMark) : Placed (a ++ token :: b) key := by
  obtain ⟨hbelow, habove⟩ := h
  rw [List.take_append_of_le_length hn] at hbelow
  rw [List.drop_append_of_le_length hn] at habove
  refine ⟨?_, ?_⟩
  · rw [List.take_append_of_le_length hn]
    exact hbelow
  · rw [List.drop_append_of_le_length hn]
    intro t hmem
    rcases List.mem_append.mp hmem with hmem | hmem
    · exact habove t (List.mem_append_left _ hmem)
    · rcases List.mem_cons.mp hmem with rfl | hmem
      · exact ht
      · exact habove t (List.mem_append_right _ hmem)

theorem insertIdx_split : ∀ {l : List Token} {n : Nat}, n ≤ l.length →
    l.insertIdx n token = l.take n ++ token :: l.drop n
  | _, 0, _ => rfl
  | t :: _, _ + 1, h => congrArg (t :: ·) (insertIdx_split (Nat.le_of_succ_le_succ h))

/-- A token is put into the queue where its number says. -/
theorem insert_eq {delivered : List Token} {n : Nat} (h : delivered.length ≤ n)
    (hn : n - delivered.length ≤ tokens.length) :
    delivered ++ tokens.insertIdx (n - delivered.length) token
      = (delivered ++ tokens).take n ++ token :: (delivered ++ tokens).drop n := by
  rw [List.take_append, List.take_of_length_le h, List.drop_append, List.drop_of_length_le h, List.nil_append,
    insertIdx_split hn, List.append_assoc]

theorem brackets_append (l k : List Token) : brackets (l ++ k) = brackets l ++ brackets k :=
  List.filterMap_append

theorem mem_insert {t : Token} : t ∈ a ++ token :: b ↔ t = token ∨ t ∈ a ++ b := by
  simp only [List.mem_append, List.mem_cons]
  tauto

theorem Near.insert {due : Mark → Prop} (h : Near due (a ++ b)) (ht : ¬isSimple token) :
    Near due (a ++ token :: b) := by
  intro t hmem hs
  rcases mem_insert.mp hmem with rfl | hmem
  · exact absurd hs ht
  · refine (h t hmem hs).imp_right ?_
    rintro ⟨value, hv, h⟩
    exact ⟨value, mem_insert.mpr (.inr hv), h⟩

theorem Near.insertKey {m : Mark} (h : Near (fun _ => False) (a ++ b)) :
    Near (· = m) (a ++ ⟨.key, m, m⟩ :: b) := by
  intro t hmem hs
  rcases mem_insert.mp hmem with rfl | hmem
  · exact .inl rfl
  · obtain ⟨value, hv, h⟩ := (h t hmem hs).resolve_left id
    exact .inr ⟨value, mem_insert.mpr (.inr hv), h⟩

theorem Near.value {due : Mark → Prop} {m : Mark} (h : Near (· = m) a) (ht : token.type = .value)
    (hm : Reaches m token.startMark) : Near due (a ++ [token]) := by
  intro t hmem hs
  rcases List.mem_append.mp hmem with hmem | hmem
  · rcases h t hmem hs with rfl | ⟨value, hv, h⟩
    · exact .inr ⟨token, by simp, ht, hm⟩
    · exact .inr ⟨value, List.mem_append_left _ hv, h⟩
  · rw [List.mem_singleton.mp hmem, isSimple, ht] at hs
    cases hs.1

end Ordered

variable {due due' : Mark → Prop} {w v : Mark} {delivered : List Token} {s t : Scanner ι}

/-! ## What the invariants depend on -/

theorem fields_of_kept {κ : Type} {t : Scanner κ} (hk : t.kept = s.kept) : t.indent = s.indent ∧ t.indents = s.indents ∧
    t.flowLevel = s.flowLevel ∧ t.tokens = s.tokens ∧ t.tokensParsed = s.tokensParsed ∧ t.simpleKeys = s.simpleKeys ∧
      t.streamStartProduced = s.streamStartProduced :=
  ⟨congrArg (fun k : Scanner Unit => k.indent) hk, congrArg (fun k : Scanner Unit => k.indents) hk,
    congrArg (fun k : Scanner Unit => k.flowLevel) hk, congrArg (fun k : Scanner Unit => k.tokens) hk,
    congrArg (fun k : Scanner Unit => k.tokensParsed) hk, congrArg (fun k : Scanner Unit => k.simpleKeys) hk,
    congrArg (fun k : Scanner Unit => k.streamStartProduced) hk⟩

theorem Sound.of_kept (h : Sound delivered s) (hk : t.kept = s.kept) : Sound delivered t := by
  obtain ⟨h1, h2, h3, h4, h5, h6, h7⟩ := fields_of_kept hk
  have hn : Candidates (Numbered t) s.simpleKeys := h.numbered.mono fun key hk => by
    unfold Numbered nextNumber at *
    rwa [h4, h5]
  exact
    { started := h7.trans h.started
      columns := by rw [h1, h2]; exact h.columns
      bottom := by rw [h1, h2]; exact h.bottom
      levels := by rw [h3, h6]; exact h.levels
      numbered := by rw [h6]; exact hn
      nested := by rw [h6]; exact h.nested
      parsed := by rw [h5]; exact h.parsed
      blocks := by rw [h2, h4]; exact h.blocks
      ordered := by rw [h4]; exact h.ordered
      placed := by rw [h4, h6]; exact h.placed }

theorem Sound.keyed (h : Sound delivered s) : Keyed s := ⟨h.numbered, h.nested⟩

theorem Sound.failed (h : Sound delivered s) (problem : Problem) : Failed delivered (.reported problem) s :=
  .inr ⟨_, rfl, h.keyed, fun _ => h⟩

theorem Keyed.failed (h : Keyed s) : Failed delivered (.reported .memory) s :=
  .inr ⟨_, rfl, h, fun hm => absurd rfl hm⟩

theorem Running.of_kept (h : Running due w delivered s) (hk : t.kept = s.kept) (hw : w.Before t.mark) :
    Running due w delivered t := by
  obtain ⟨-, -, -, h4, -, h6, -⟩ := fields_of_kept hk
  exact
    { h.toSound.of_kept hk with
      near := by rw [h4]; exact h.near
      behind := by rw [h4]; exact h.behind
      keys := by rw [h6]; exact h.keys
      up := hw }

/-- The scanner may go on to a place further on. -/
theorem Running.later (h : Running due w delivered s) (hw : w.Before v) (hv : v.Before s.mark) :
    Running due v delivered s :=
  { h with behind := fun t ht => (h.behind t ht).trans hw, keys := h.keys.mono fun _ hk => hk.trans hw, up := hv }

theorem Settled.of_kept (h : Settled delivered s) (hk : t.kept = s.kept) (hw : s.mark.Before t.mark) :
    Settled delivered t := by
  obtain ⟨-, -, -, h4, h5, h6, -⟩ := fields_of_kept hk
  refine { (h.toRunning.of_kept hk hw).later hw (.refl _) with queued := ?_ }
  unfold nextNumber
  rw [h4, h5, h6]
  exact h.queued

/-- Clearing candidates harms nothing. -/
theorem Sound.clear {keys : List SimpleKey} (h : Sound delivered s) (hc : Cleared s.simpleKeys keys) :
    Sound delivered { s with simpleKeys := keys } :=
  { h with
    levels := hc.length.trans h.levels, numbered := hc.candidates h.numbered, nested := hc.nested h.nested
    placed := hc.candidates h.placed }

theorem Running.clear {keys : List SimpleKey} (h : Running due w delivered s) (hc : Cleared s.simpleKeys keys) :
    Running due w delivered { s with simpleKeys := keys } :=
  { h.toSound.clear hc with near := h.near, behind := h.behind, keys := hc.candidates h.keys, up := h.up }

theorem Settled.clear {keys : List SimpleKey} (h : Settled delivered s) (hc : Cleared s.simpleKeys keys) :
    Settled delivered { s with simpleKeys := keys } :=
  { h.toRunning.clear hc with queued := hc.candidates h.queued }

/-! ## Putting tokens into the queue -/

section Put

variable {a b tokens : List Token} {token : Token} {indent : Int} {indents : List Int}

/-- What there is to say of a token that is put between `a` and `b`. -/
structure Fits (a b : List Token) (token : Token) (keys : List SimpleKey) : Prop where
  behind : ∀ t ∈ a, t.startMark.Before token.startMark
  ahead : ∀ t ∈ b, token.startMark.Before t.startMark
  extent : token.startMark.Before token.endMark
  keys : Candidates (fun key => key.tokenNumber ≤ a.length ∧ key.mark.Before token.startMark) keys

theorem Sound.put (h : Sound delivered s) (hold : delivered ++ s.tokens = a ++ b)
    (hnew : delivered ++ tokens = a ++ token :: b) (hf : Fits a b token s.simpleKeys)
    (hcolumns : (indent :: indents).Pairwise (· > ·)) (hbottom : (indent :: indents).getLast? = some (-1))
    (hblocks : Opened indents.length (brackets (a ++ token :: b))) :
    Sound delivered { s with indent := indent, indents := indents, tokens := tokens } := by
  have hlength : tokens.length = s.tokens.length + 1 := by
    have h1 := congrArg List.length hold
    have h2 := congrArg List.length hnew
    simp only [List.length_append, List.length_cons] at h1 h2
    omega
  have hordered := h.ordered
  have hplaced := h.placed
  rw [hold] at hordered hplaced
  refine { h with columns := hcolumns, bottom := hbottom, numbered := ?_, blocks := ?_, ordered := ?_, placed := ?_ }
  · refine h.numbered.mono fun key hk => ⟨hk.1, ?_⟩
    have : key.tokenNumber ≤ s.tokensParsed + s.tokens.length := hk.2
    change key.tokenNumber ≤ s.tokensParsed + tokens.length
    omega
  · rw [hnew]
    exact hblocks
  · rw [hnew]
    exact hordered.insert hf.behind hf.ahead hf.extent
  · rw [hnew]
    exact (hplaced.and hf.keys).mono fun key hk => hk.1.insert hk.2.1 hk.2.2

theorem Running.put (h : Running due w delivered s) (hold : delivered ++ s.tokens = a ++ b)
    (hnew : delivered ++ tokens = a ++ token :: b) (hf : Fits a b token s.simpleKeys)
    (hcolumns : (indent :: indents).Pairwise (· > ·)) (hbottom : (indent :: indents).getLast? = some (-1))
    (hblocks : Opened indents.length (brackets (a ++ token :: b))) (hnear : Near due' (a ++ token :: b))
    (hw : w.Before v) (ht : token.startMark.Before v) (hv : v.Before s.mark) :
    Running due' v delivered { s with indent := indent, indents := indents, tokens := tokens } := by
  refine { h.toSound.put hold hnew hf hcolumns hbottom hblocks with near := ?_, behind := ?_, keys := ?_, up := hv }
  · rw [hnew]
    exact hnear
  · rw [hnew]
    intro t hmem
    rcases mem_insert.mp hmem with rfl | hmem
    · exact ht
    · exact (h.behind t (hold ▸ hmem)).trans hw
  · exact h.keys.mono fun _ hk => hk.trans hw

/-- A token fits at the end of the queue. -/
theorem Running.fits (h : Running due w delivered s) (hw : w.Before token.startMark)
    (ht : token.startMark.Before token.endMark) : Fits (delivered ++ s.tokens) [] token s.simpleKeys := by
  refine ⟨fun t hmem => (h.behind t hmem).trans hw, fun _ hmem => absurd hmem List.not_mem_nil, ht, ?_⟩
  refine (h.numbered.and h.keys).mono fun key hk => ⟨?_, hk.2.trans hw⟩
  have := hk.1.2
  have hp := h.parsed
  unfold nextNumber at this
  rw [List.length_append]
  omega

theorem queue_eq : delivered ++ (s.tokens ++ [token]) = (delivered ++ s.tokens) ++ token :: [] :=
  (List.append_assoc ..).symm

/-- A token joins the queue. -/
theorem Running.queue (h : Running due w delivered s) (token : Token) (hw : w.Before token.startMark)
    (ht : token.startMark.Before token.endMark) (hup : token.startMark.Before s.mark)
    (hcolumns : (indent :: indents).Pairwise (· > ·)) (hbottom : (indent :: indents).getLast? = some (-1))
    (hblocks : Opened indents.length (brackets (delivered ++ s.tokens ++ [token])))
    (hnear : Near (fun _ => False) (delivered ++ s.tokens ++ [token])) :
    Settled delivered { s with indent := indent, indents := indents, tokens := s.tokens ++ [token] } := by
  have hrun := h.put (v := s.mark) (List.append_nil _).symm queue_eq (h.fits hw ht) hcolumns hbottom hblocks hnear
    h.up hup (.refl _)
  refine { hrun with queued := h.numbered.mono fun key hk => ?_ }
  have : key.tokenNumber ≤ s.tokensParsed + s.tokens.length := hk.2
  change key.tokenNumber < s.tokensParsed + (s.tokens ++ [token]).length
  rw [List.length_append, List.length_singleton]
  omega

/-- A token that neither opens nor closes a block joins the queue. -/
theorem Running.enqueue (h : Running due w delivered s) (token : Token) (hw : w.Before token.startMark)
    (ht : token.startMark.Before token.endMark) (hup : token.startMark.Before s.mark)
    (hb : bracket token.type = none) (hnear : Near (fun _ => False) (delivered ++ s.tokens ++ [token])) :
    Settled delivered { s with tokens := s.tokens ++ [token] } := by
  have hnone : brackets [token] = [] := by simp [brackets, hb]
  refine h.queue token hw ht hup h.columns h.bottom ?_ hnear
  rw [brackets_append, hnone, List.append_nil]
  exact h.blocks

/-- A token that cannot be taken for a simple key joins the queue. -/
theorem Near.queue (h : Near due tokens) (ht : ¬isSimple token) : Near due (tokens ++ [token]) :=
  Near.insert (b := []) ((List.append_nil tokens).symm ▸ h) ht

end Put

/-! ## Keys -/

section Keys

/-- What holds at the place where a token is fetched: no candidate is stale. -/
def Fetching (delivered : List Token) (s : Scanner ι) : Prop :=
  Settled delivered s ∧ Candidates (SimpleKey.isStale s.mark · = false) s.simpleKeys

/-- Where no required key is stale, no stale one is left. -/
theorem staleSimpleKeys_ok {u : Unit} (h : staleSimpleKeys s = .ok u t) :
    t = { s with simpleKeys := (staleKeys s.mark s.simpleKeys).1 }
      ∧ Candidates (SimpleKey.isStale s.mark · = false) t.simpleKeys := by
  simp only [staleSimpleKeys, bind_apply, get_apply, set_apply] at h
  cases hk : (staleKeys s.mark s.simpleKeys).2 <;> rw [hk] at h <;> cases h
  exact ⟨rfl, staleKeys_fresh s.mark s.simpleKeys hk⟩

theorem staleSimpleKeys_spec :
    Holds (Settled delivered) (staleSimpleKeys (ι := ι)) (fun _ => Fetching delivered) (Failed delivered) := by
  intro s h
  have hc := staleKeys_cleared s.mark s.simpleKeys
  have hfresh := staleKeys_fresh s.mark s.simpleKeys
  simp only [staleSimpleKeys, bind_apply, get_apply, set_apply]
  cases hk : (staleKeys s.mark s.simpleKeys).2 with
  | none => exact ⟨h.clear hc, hfresh hk⟩
  | some key => exact (h.toSound.clear hc).failed _

/-- There is a place for a key on every level. -/
theorem Sound.top (h : Sound delivered s) : ∃ key keys, s.simpleKeys = key :: keys := by
  have := h.levels
  cases hk : s.simpleKeys with
  | nil => simp [hk] at this
  | cons key keys => exact ⟨key, keys, rfl⟩

theorem removeSimpleKey_eq {key : SimpleKey} {keys : List SimpleKey} (hk : s.simpleKeys = key :: keys) :
    removeSimpleKey s = if key.possible && key.required then missingColon key s
      else .ok ⟨⟩ { s with simpleKeys := { key with possible := false } :: keys } := by
  have top : topSimpleKey s = .ok key s := by simp only [topSimpleKey, hk]
  have hset : setTopSimpleKey { key with possible := false } s
      = .ok ⟨⟩ { s with simpleKeys := { key with possible := false } :: keys } := by
    simp [setTopSimpleKey, hk]
  rw [removeSimpleKey, bind_of_ok top]
  cases hr : key.possible && key.required with
  | true => rfl
  | false => exact hset

theorem cleared_top {key : SimpleKey} {keys : List SimpleKey} (hk : s.simpleKeys = key :: keys) :
    Cleared s.simpleKeys ({ key with possible := false } :: keys) := by
  rw [hk]
  exact .cons (.inr rfl) (Cleared.refl keys)

theorem removeSimpleKey_spec :
    Holds (Settled delivered) (removeSimpleKey (ι := ι)) (fun _ => Settled delivered) (Failed delivered) := by
  intro s h
  obtain ⟨key, keys, hk⟩ := h.toSound.top
  rw [removeSimpleKey_eq hk]
  cases key.possible && key.required with
  | true => exact h.toSound.failed _
  | false => exact h.clear (cleared_top hk)

theorem saveSimpleKey_spec : Holds (Settled delivered) (saveSimpleKey (ι := ι))
    (fun _ s => Running (fun _ => False) s.mark delivered s) (Failed delivered) := by
  intro s h
  simp only [saveSimpleKey, bind_apply, get_apply]
  cases ha : s.simpleKeyAllowed with
  | false => exact h.toRunning
  | true =>
    obtain ⟨key, keys, hk⟩ := h.toSound.top
    simp only [onlyIf, if_true, bind_apply]
    rw [removeSimpleKey_eq hk]
    cases key.possible && key.required with
    | true => exact h.toSound.failed _
    | false =>
      have h' := h.clear (cleared_top hk)
      have hn := h'.nested
      have hq := h'.queued.tail
      have hm := h'.keys.tail
      have hnumber : nextNumber s = (delivered ++ s.tokens).length := by
        rw [nextNumber, h.parsed, List.length_append]
      refine
        { h'.toRunning with
          numbered := h'.numbered.tail.cons fun _ => ⟨Nat.le_add_right _ _, le_rfl⟩
          nested := List.pairwise_cons.mpr ⟨fun lower hl _ hp => ⟨hq lower hl hp, hm lower hl hp⟩,
            (List.pairwise_cons.mp hn).2⟩
          placed := h'.placed.tail.cons fun _ => ⟨fun t ht => ?_, fun t ht => ?_⟩
          keys := hm.cons fun _ => .refl _ }
      · exact h.behind t (List.mem_of_mem_take ht)
      · change t ∈ (delivered ++ s.tokens).drop (nextNumber s) at ht
        rw [hnumber, List.drop_length] at ht
        cases ht

end Keys

/-! ## Blocks and flow levels -/

section Blocks

theorem allowSimpleKey_spec {allowed : Bool} :
    Holds (Running due w delivered) (allowSimpleKey (ι := ι) allowed) (fun _ => Running due w delivered)
      (Failed delivered) :=
  fun _ h => h.of_kept rfl h.up

theorem not_simple_of_bracket {token : Token} {step : DyckStep} (h : bracket token.type = some step) :
    ¬isSimple token := by
  intro hs
  rw [hs.1] at h
  cases h

theorem increaseFlowLevel_spec : Holds (Running due w delivered) (increaseFlowLevel (ι := ι))
    (fun _ => Running due w delivered) (Failed delivered) := by
  intro s h
  have hno {P : SimpleKey → Prop} (hP : Candidates P s.simpleKeys) : Candidates P (noSimpleKey :: s.simpleKeys) :=
    hP.cons fun hp => absurd hp Bool.false_ne_true
  simp only [increaseFlowLevel, bind_apply, modify_apply, get_apply]
  split_ifs with hmax
  · exact Keyed.failed ⟨hno h.numbered, List.pairwise_cons.mpr ⟨fun _ _ hp => absurd hp Bool.false_ne_true, h.nested⟩⟩
  · exact
      { h with
        levels := congrArg (· + 1) h.levels
        numbered := hno h.numbered
        nested := List.pairwise_cons.mpr ⟨fun _ _ hp => absurd hp Bool.false_ne_true, h.nested⟩
        placed := hno h.placed
        keys := hno h.keys }

theorem decreaseFlowLevel_spec : Holds (Settled delivered) (decreaseFlowLevel (ι := ι))
    (fun _ => Settled delivered) (Failed delivered) := by
  intro s h
  have hlevels := h.levels
  unfold decreaseFlowLevel
  split_ifs with hflow
  · exact h
  · cases hk : s.simpleKeys with
    | nil => simp [hk] at hlevels
    | cons key keys =>
      have hall {P : SimpleKey → Prop} (hP : Candidates P s.simpleKeys) : Candidates P keys := by
        rw [hk] at hP
        exact hP.tail
      have hnested := h.nested
      rw [hk] at hlevels hnested
      simp only [List.length_cons] at hlevels
      exact
        { h with
          levels := by
            change keys.length = s.flowLevel - 1 + 1
            omega
          numbered := hall h.numbered
          nested := (List.pairwise_cons.mp hnested).2
          placed := hall h.placed
          keys := hall h.keys
          queued := hall h.queued }

/-- A block is opened at the place where the scanner is. -/
theorem rollIndent_here {data : TokenData} (hb : bracket data.type = some .U) (m : Mark) :
    Holds (fun s : Scanner ι => Settled delivered s ∧ s.mark = m) (rollIndent m.column none data m)
      (fun _ s => Settled delivered s ∧ s.mark = m) (Failed delivered) := by
  rintro s ⟨h, rfl⟩
  simp only [rollIndent, bind_apply, get_apply]
  cases hroll : (decide (s.flowLevel = 0) && decide (s.indent < (s.mark.column : Int))) with
  | false => exact ⟨h, rfl⟩
  | true =>
    have hdeeper : s.indent < (s.mark.column : Int) := of_decide_eq_true (Bool.and_eq_true_iff.mp hroll).2
    simp only [onlyIf, if_true, bind_apply, set_apply]
    split_ifs with hmax
    · exact Keyed.failed ⟨h.numbered, h.nested⟩
    · refine ⟨h.queue ⟨data, s.mark, s.mark⟩ (.refl _) (.refl _) (.refl _) ?_ ?_ ?_ ?_, rfl⟩
      · refine List.pairwise_cons.mpr ⟨fun i hi => ?_, h.columns⟩
        rcases List.mem_cons.mp hi with rfl | hi
        · exact hdeeper
        · exact lt_trans ((List.pairwise_cons.mp h.columns).1 i hi) hdeeper
      · rw [List.getLast?_cons_cons]
        exact h.bottom
      · have hone : brackets [(⟨data, s.mark, s.mark⟩ : Token)] = [.U] := by
          have : bracket (⟨data, s.mark, s.mark⟩ : Token).type = some .U := hb
          simp [brackets, this]
        rw [brackets_append, hone]
        exact h.blocks.push
      · exact h.near.queue (not_simple_of_bracket hb)

/-- Blocks that are closed leave what surrounds them. -/
theorem unrollIndent_keys (F : Mark → List SimpleKey → Prop) {column : Int} (hc : -1 ≤ column) :
    Holds (fun s : Scanner ι => Settled delivered s ∧ F s.mark s.simpleKeys) (unrollIndent column)
      (fun _ s => Settled delivered s ∧ F s.mark s.simpleKeys) (Failed delivered) := by
  have hloop : ∀ s : Scanner ι, Settled delivered s ∧ F s.mark s.simpleKeys → ∀ n, s.indents.length < n →
      Yields (Fallible.loop .outOfFuel (fun _ => do
        let s ← get
        if column < s.indent then do
          enqueueToken ⟨.blockEnd, s.mark, s.mark⟩
          popIndent
          return .again ()
        else return .leave ()) n ()) s fun _ s => Settled delivered s ∧ F s.mark s.simpleKeys := by
    intro s h n hn
    refine Yields.loop (P := fun _ s => Settled delivered s ∧ F s.mark s.simpleKeys) (fun s => s.indents.length)
      ?_ n () s h hn
    rintro ⟨⟩ s ⟨h, hfresh⟩
    by_cases hlt : column < s.indent
    · have hbottom := h.bottom
      have hcolumns := h.columns
      cases hi : s.indents with
      | nil =>
        rw [hi] at hbottom
        have : s.indent = -1 := Option.some.inj hbottom
        omega
      | cons i below =>
        rw [hi] at hbottom hcolumns
        have hone : brackets [(⟨.blockEnd, s.mark, s.mark⟩ : Token)] = [.D] := rfl
        have hblocks := h.blocks
        rw [hi] at hblocks
        have hqueue : Settled delivered { s with
            indent := i, indents := below, tokens := s.tokens ++ [⟨.blockEnd, s.mark, s.mark⟩] } := by
          refine h.queue ⟨.blockEnd, s.mark, s.mark⟩ (.refl _) (.refl _) (.refl _) (List.pairwise_cons.mp hcolumns).2
            (List.getLast?_cons_cons.symm.trans hbottom) ?_ ?_
          · rw [brackets_append, hone]
            exact hblocks.pop
          · exact h.near.queue (not_simple_of_bracket (show bracket TokenType.blockEnd = some .D from rfl))
        refine ⟨.again (), _, ?_, ⟨hqueue, hfresh⟩, ?_⟩
        · simp only [bind_apply, get_apply, hlt, if_true, enqueueToken, modify_apply, popIndent, hi, pure_apply]
        · exact Nat.lt_succ_self below.length
    · refine ⟨.leave (), s, ?_, h, hfresh⟩
      simp only [bind_apply, get_apply, hlt, if_false, pure_apply]
  intro s h
  unfold unrollIndent
  rw [bind_of_ok (get_apply s)]
  cases hflow : decide (s.flowLevel = 0) with
  | false => exact h
  | true =>
    obtain ⟨u, t, ht, hq⟩ := hloop s h (s.indents.length + 2) (by omega)
    rw [onlyIf, if_pos rfl, ht]
    exact hq

theorem unrollIndent_spec {column : Int} (hc : -1 ≤ column) :
    Holds (Fetching delivered) (unrollIndent (ι := ι) column) (fun _ => Fetching delivered) (Failed delivered) :=
  unrollIndent_keys (fun m keys => Candidates (SimpleKey.isStale m · = false) keys) hc

end Blocks

end Scanner

end LibYaml
