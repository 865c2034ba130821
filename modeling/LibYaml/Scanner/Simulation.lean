import LibYaml.Scanner.Views
import Mathlib.Algebra.Order.Group.Nat

/-!
# Scanning two inputs side by side

Two inputs that show the same characters are scanned alike, whatever their buffers hold.  A
`Simulation` says what the inputs have to keep for that; the rules here follow one run of the
scanner on each of them, count the characters that are surely there, and with them show that no
check sees more.
-/

namespace LibYaml

open Fallible

variable {ι κ : Type}

/-- The mark behind the next character. -/
def Mark.past (m : Mark) : Mark := ⟨m.index + 1, m.line, m.column + 1⟩

/-- The mark behind a line break of `n` characters. -/
def Mark.below (m : Mark) (n : Nat) : Mark := ⟨m.index + n, m.line + 1, 0⟩

/-- `Rel m n i j`: the inputs stand at the mark `m`, and the next `n` characters, or those up to the
NUL, are in both buffers. -/
structure Simulation (ι κ : Type) [Input ι] [Input κ] where
  Rel : Mark → Nat → ι → κ → Prop
  Broken : Mark → ι → κ → Prop
  mono : ∀ {m n k i j}, k ≤ n → Rel m n i j → Rel m k i j
  agree : ∀ {m n i j}, Rel m n i j → Agree n (Input.view i) (Input.view j)
  broken : ∀ {m n i j}, Rel m n i j → Broken m i j
  encoding : ∀ {m n i j}, Rel m (n + 1) i j → Input.encoding i = Input.encoding j
  cache : ∀ {m k i j} (n : Nat), n ≤ 8 → Rel m k i j →
    match Input.cache n i, Input.cache n j with
    | .ok _ i', .ok _ j' =>
      Rel m n i' j' ∧ Agree k (Input.view i) (Input.view i')
        ∧ Input.size i' ≤ Input.size i ∧ Input.size j' ≤ Input.size j
    | .error e i', .error f j' => e = f ∧ Broken m i' j'
    | _, _ => False
  past : ∀ {m n i j}, Rel m (n + 1) i j → Inline (Input.view i) →
    Rel m.past n (Input.advance (width (Input.view i)) i) (Input.advance (width (Input.view j)) j)
      ∧ Input.size (Input.advance (width (Input.view i)) i) < Input.size i
      ∧ Input.size (Input.advance (width (Input.view j)) j) < Input.size j
  below : ∀ {m n i j}, Rel m (n + 1) i j → isBreak (Input.view i) = true →
    Rel (m.below 1) n (Input.advance (width (Input.view i)) i)
        (Input.advance (width (Input.view j)) j)
      ∧ Input.size (Input.advance (width (Input.view i)) i) < Input.size i
      ∧ Input.size (Input.advance (width (Input.view j)) j) < Input.size j
  crlf : ∀ {m n i j}, Rel m (n + 2) i j → isCrlf (Input.view i) = true →
    Rel (m.below 2) n (Input.advance 1 (Input.advance 1 i)) (Input.advance 1 (Input.advance 1 j))
      ∧ Input.size (Input.advance 1 (Input.advance 1 i)) + 1 < Input.size i
      ∧ Input.size (Input.advance 1 (Input.advance 1 j)) + 1 < Input.size j
  ended : ∀ {m n i j}, Rel m n i j → Rel (m.below 0) n i j

namespace Scanner

/-- The scanner with another input. -/
def onto (s : Scanner ι) (input : κ) : Scanner κ :=
  { input := input, error := s.error, mark := s.mark, streamStartProduced := s.streamStartProduced,
    streamEndProduced := s.streamEndProduced, flowLevel := s.flowLevel, tokens := s.tokens,
    tokensParsed := s.tokensParsed, tokenAvailable := s.tokenAvailable, indents := s.indents,
    indent := s.indent, simpleKeyAllowed := s.simpleKeyAllowed, simpleKeys := s.simpleKeys }

/-- What scanning a token leaves as it is. -/
def kept (s : Scanner ι) : Scanner Unit :=
  { s.onto () with mark := .zero, simpleKeyAllowed := false }

section Since

variable [Input ι]

/-- The scanner has moved from `o` to `s`, over characters only. -/
structure Since (o s : Scanner ι) : Prop where
  kept : kept s = kept o
  index : o.mark.index ≤ s.mark.index
  size : s.mark.index + Input.size s.input ≤ o.mark.index + Input.size o.input
  place : o.mark.line < s.mark.line
    ∨ o.mark.line = s.mark.line ∧ s.mark.column + o.mark.index = o.mark.column + s.mark.index

theorem Since.refl (s : Scanner ι) : Since s s := ⟨rfl, le_rfl, le_rfl, .inr ⟨rfl, rfl⟩⟩

theorem Since.trans {o s t : Scanner ι} (h : Since o s) (h' : Since s t) : Since o t := by
  refine ⟨h'.kept.trans h.kept, h.index.trans h'.index, h'.size.trans h.size, ?_⟩
  have := h.place
  have := h'.place
  omega

def Shows (p : View → Prop) (s : Scanner ι) : Prop := p (Input.view s.input)

/-- The next `k` characters are surely there. -/
abbrev Ahead (k : Nat) : Scanner ι → Prop := Shows (Solid k)

end Since

variable [Input ι] [Input κ] (R : Simulation ι κ)

/-- The two scanners stand at the same place, `i` characters into the stream or further, with `P`,
and with the next `n` characters in their buffers; they came there from `o`. -/
structure Ready (o : Scanner ι × Scanner κ) (P : Scanner ι → Prop) (n i : Nat) (s : Scanner ι)
    (t : Scanner κ) : Prop where
  onto : t = s.onto t.input
  rel : R.Rel s.mark n s.input t.input
  ahead : P s
  index : i ≤ s.mark.index
  left : Since o.1 s
  right : Since o.2 t

/-- How scanning fails: with a problem, where both scanners have come from `o`. -/
structure Lost (o : Scanner ι × Scanner κ) (e : Fault) (s : Scanner ι) (t : Scanner κ) : Prop where
  reported : ∃ problem, e = .reported problem
  onto : t = s.onto t.input
  broken : R.Broken s.mark s.input t.input
  kept : s.kept = o.1.kept

variable {R} {α β : Type} {o : Scanner ι × Scanner κ} {P P' A B : Scanner ι → Prop}
  {n m i k : Nat}

namespace Ready

variable {s : Scanner ι} {t : Scanner κ}

theorem weaken (h : Ready R o P n i s t) {n' i' : Nat} (hP : P s → P' s) (hn : n' ≤ n)
    (hi : i' ≤ i) : Ready R o P' n' i' s t :=
  ⟨h.onto, R.mono hn h.rel, hP h.ahead, hi.trans h.index, h.left, h.right⟩

theorem lost (h : Ready R o P n i s t) (problem : Problem) :
    Lost R o (.reported problem) s t :=
  ⟨⟨_, rfl⟩, h.onto, R.broken h.rel, h.left.kept⟩

theorem trans (h : Ready R (s, t) P' m k s' t') (ho : Since o.1 s) (ho' : Since o.2 t) :
    Ready R o P' m k s' t' :=
  ⟨h.onto, h.rel, h.ahead, h.index, ho.trans h.left, ho'.trans h.right⟩

end Ready

theorem Lost.trans {s s' : Scanner ι} {t t' : Scanner κ} {e : Fault}
    (h : Lost R (s, t) e s' t') (ho : Since o.1 s) : Lost R o e s' t' :=
  ⟨h.reported, h.onto, h.broken, h.kept.trans ho.kept⟩

namespace Sim

section Rules

variable {Q : β → Scanner ι → Scanner κ → Prop} {E : Fault → Scanner ι → Scanner κ → Prop}

theorem pure {a : α} : Sim (Ready R o P n i) (Pure.pure a) (Pure.pure a)
    (fun _ => Ready R o P n i) E :=
  Fallible.Sim.pure fun _ _ h => h

theorem fail {context : Option String} {mark : Mark} {problem : String}
    {Q : α → Scanner ι → Scanner κ → Prop} :
    Sim (Ready R o P n i) (scannerError context mark problem) (scannerError context mark problem)
      Q (Lost R o) := by
  intro s t h
  have ht : t.mark = s.mark := by rw [h.onto]; rfl
  exact ⟨by rw [ht], h.lost _⟩

theorem getMark {f : Mark → ScanM ι β} {g : Mark → ScanM κ β}
    (h : ∀ w, Sim (Ready R o (fun s => P s ∧ s.mark = w) n i) (f w) (g w) Q E) :
    Sim (Ready R o P n i) (getMark >>= f) (getMark >>= g) Q E := by
  intro s t hst
  have hm : t.mark = s.mark := by rw [hst.onto]; rfl
  have := h s.mark s t (hst.weaken (fun h => ⟨h, rfl⟩) le_rfl le_rfl)
  rwa [bind_apply, bind_apply, Scanner.getMark, Scanner.getMark, hm]

theorem mark {f : Mark → ScanM ι β} {g : Mark → ScanM κ β}
    (h : ∀ w, Sim (Ready R o P n i) (f w) (g w) Q E) :
    Sim (Ready R o P n i) (Scanner.getMark >>= f) (Scanner.getMark >>= g) Q E :=
  getMark fun w => (h w).of fun _ _ h => h.weaken And.left le_rfl le_rfl

theorem getIndent {f : Int → ScanM ι β} {g : Int → ScanM κ β}
    (h : ∀ c, Sim (Ready R o P n i) (f c) (g c) Q E) :
    Sim (Ready R o P n i) (getIndent >>= f) (getIndent >>= g) Q E := by
  intro s t hst
  have hm : t.indent = s.indent := by rw [hst.onto]; rfl
  have := h s.indent s t hst
  rwa [bind_apply, bind_apply, Scanner.getIndent, Scanner.getIndent, hm]

theorem inFlow {f : Bool → ScanM ι β} {g : Bool → ScanM κ β}
    (h : ∀ b, Sim (Ready R o (fun s => P s ∧ decide (s.flowLevel ≠ 0) = b) n i) (f b) (g b) Q
      E) :
    Sim (Ready R o P n i) (inFlow >>= f) (inFlow >>= g) Q E := by
  intro s t hst
  have hm : t.flowLevel = s.flowLevel := by rw [hst.onto]; rfl
  have := h (decide (s.flowLevel ≠ 0)) s t (hst.weaken (fun h => ⟨h, rfl⟩) le_rfl le_rfl)
  rwa [bind_apply, bind_apply, Scanner.inFlow, Scanner.inFlow, hm]

theorem flow {f : Bool → ScanM ι β} {g : Bool → ScanM κ β}
    (h : ∀ b, Sim (Ready R o P n i) (f b) (g b) Q E) :
    Sim (Ready R o P n i) (Scanner.inFlow >>= f) (Scanner.inFlow >>= g) Q E :=
  inFlow fun b => (h b).of fun _ _ h => h.weaken And.left le_rfl le_rfl

/-- Reading is the same on both sides where it is local. -/
theorem look {f : View → α} {x : α → ScanM ι β} {y : α → ScanM κ β}
    (hf : ∀ s, P s → ∀ w, Agree n (Input.view s.input) w → f (Input.view s.input) = f w)
    (h : ∀ a, Sim (Ready R o (fun s => P s ∧ f (Input.view s.input) = a) n i) (x a) (y a) Q
      E) :
    Sim (Ready R o P n i) (look f >>= x) (look f >>= y) Q E := by
  intro s t hst
  have := h (f (Input.view s.input)) s t ⟨hst.onto, hst.rel, ⟨hst.ahead, rfl⟩, hst.index, hst.left,
    hst.right⟩
  have he := hf s hst.ahead _ (R.agree hst.rel)
  rw [bind_apply, bind_apply]
  simpa only [Scanner.look, ← he] using this

/-- What is read need not be known. -/
theorem lookAt {f : View → α} {x : α → ScanM ι β} {y : α → ScanM κ β} (hf : Local n f)
    (h : ∀ a, Sim (Ready R o P n i) (x a) (y a) Q E) :
    Sim (Ready R o P n i) (Scanner.look f >>= x) (Scanner.look f >>= y) Q E :=
  look (fun _ _ _ h => hf _ _ h) fun a => (h a).of fun _ _ h => h.weaken And.left le_rfl le_rfl

theorem ifLookOn {c : View → Bool} {x y : ScanM ι β} {x' y' : ScanM κ β}
    (hc : ∀ s, P s → ∀ w, Agree n (Input.view s.input) w → c (Input.view s.input) = c w)
    (ht : ∀ s, P s → c (Input.view s.input) = true → A s)
    (hf : ∀ s, P s → c (Input.view s.input) = false → B s)
    (hx : Sim (Ready R o A n i) x x' Q E)
    (hy : Sim (Ready R o B n i) y y' Q E) :
    Sim (Ready R o P n i) (Scanner.look c >>= fun b => if b = true then x else y)
      (Scanner.look c >>= fun b => if b = true then x' else y') Q E := by
  refine look hc fun a => ?_
  cases a with
  | true => exact hx.of fun s t h => h.weaken (fun h => ht s h.1 h.2) le_rfl le_rfl
  | false => exact hy.of fun s t h => h.weaken (fun h => hf s h.1 h.2) le_rfl le_rfl

theorem ifLook {c : View → Bool} {x y : ScanM ι β} {x' y' : ScanM κ β} (hc : Local n c)
    (ht : ∀ s, P s → c (Input.view s.input) = true → A s)
    (hf : ∀ s, P s → c (Input.view s.input) = false → B s)
    (hx : Sim (Ready R o A n i) x x' Q E)
    (hy : Sim (Ready R o B n i) y y' Q E) :
    Sim (Ready R o P n i) (Scanner.look c >>= fun b => if b = true then x else y)
      (Scanner.look c >>= fun b => if b = true then x' else y') Q E :=
  ifLookOn (fun _ _ _ h => hc _ _ h) ht hf hx hy

theorem of_ready {n' i' : Nat} {x : ScanM ι β} {y : ScanM κ β}
    (hn : n' ≤ n) (hi : i' ≤ i) (hP : ∀ s, P s → P' s) (h : Sim (Ready R o P' n' i') x y Q E) :
    Sim (Ready R o P n i) x y Q E :=
  h.of fun s _ h => h.weaken (hP s) hn hi

end Rules

section Moves

/-- `CACHE`: what was known of the next characters still holds. -/
theorem cacheWith (hn : n ≤ 8) (hP : ∀ s input, P s →
    Agree m (Input.view s.input) (Input.view input) → A { s with input := input }) :
    Sim (Ready R o P m i) (cache n) (cache n) (fun _ => Ready R o A n i) (Lost R o) := by
  intro s t h
  have hc := R.cache n hn h.rel
  unfold Scanner.cache
  cases hs : Input.cache n s.input <;> cases ht : Input.cache n t.input <;> rw [hs, ht] at hc <;>
    try exact hc.elim
  · obtain ⟨hrel, hagree, hsize, hsize'⟩ := hc
    refine ⟨rfl, ?_, hrel, hP _ _ h.ahead hagree, h.index, h.left.trans ?_, h.right.trans ?_⟩
    · rw [h.onto]
      rfl
    · exact ⟨rfl, le_rfl, Nat.add_le_add_left hsize _, .inr ⟨rfl, rfl⟩⟩
    · exact ⟨rfl, le_rfl, Nat.add_le_add_left hsize' _, .inr ⟨rfl, rfl⟩⟩
  · obtain ⟨rfl, hbroken⟩ := hc
    refine ⟨rfl, ⟨_, rfl⟩, ?_, hbroken, h.left.kept⟩
    rw [h.onto]
    rfl

theorem cacheThen {f : Unit → ScanM ι β} {g : Unit → ScanM κ β}
    {Q : β → Scanner ι → Scanner κ → Prop}
    (hn : n ≤ 8) (hk : k ≤ m)
    (h : ∀ u, Sim (Ready R o (Ahead k) n i) (f u) (g u) Q (Lost R o)) :
    Sim (Ready R o (Ahead k) m i) (cache n >>= f) (cache n >>= g) Q (Lost R o) :=
  (cacheWith hn fun _ _ h ha => ha.solid hk h).bind h

end Moves

end Sim

section Pass

variable {s : Scanner ι} {t : Scanner κ} {p q : View → Prop}

/-- What comes of a step over some characters when the mark moves to `w`. -/
theorem Ready.move (h : Ready R o P n i s t) {w : Mark} {x : ι} {y : κ} (hrel : R.Rel w k x y)
    (hs : w.index + Input.size x ≤ s.mark.index + Input.size s.input)
    (ht : w.index + Input.size y ≤ s.mark.index + Input.size t.input)
    (hi : s.mark.index < w.index)
    (hw : s.mark.line < w.line ∨ s.mark.line = w.line ∧ w.column + s.mark.index = s.mark.column + w.index)
    (hP : P' { s with mark := w, input := x }) :
    Ready R o P' k (i + 1) { s with mark := w, input := x } { t with mark := w, input := y } := by
  have hm : t.mark = s.mark := by rw [h.onto]; rfl
  have := h.index
  refine ⟨?_, hrel, hP, ?_, h.left.trans ⟨rfl, ?_, ?_, ?_⟩, h.right.trans ⟨rfl, ?_, ?_, ?_⟩⟩
  · rw [h.onto]
    rfl
  all_goals simp only [hm]
  all_goals omega

/-- The widths of the next character are the same on both sides. -/
theorem Ready.width (h : Ready R o P (n + 1) i s t) :
    width (Input.view t.input) = width (Input.view s.input) :=
  (width_congr (R.agree h.rel).head).symm

theorem Ready.passOver (h : Ready R o (Shows p) (n + 1) i s t) (h0 : ∀ v, p v → Inline v)
    (hq : ∀ v, p v → q (next v)) :
    Ready R o (Shows q) n (i + 1) (s.passOver (LibYaml.width (Input.view s.input)))
      (t.passOver (LibYaml.width (Input.view t.input))) := by
  have hm : t.mark = s.mark := by rw [h.onto]; rfl
  obtain ⟨hrel, hs, ht⟩ := R.past h.rel (h0 _ h.ahead)
  unfold Scanner.passOver
  rw [hm]
  refine h.move (w := s.mark.past) hrel ?_ ?_ (Nat.lt_succ_self _) (.inr ⟨rfl, ?_⟩) ?_
  · simp only [Mark.past]
    omega
  · simp only [Mark.past]
    omega
  · simp only [Mark.past]
    omega
  · show q (Input.view _)
    rw [Input.view_advance]
    exact hq _ h.ahead

theorem Ready.passBreak (h : Ready R o (Shows p) (n + 1) i s t) (h0 : ∀ v, p v → isBreak v = true)
    {w : Nat} (hw : ∀ v, p v → LibYaml.width v = w) :
    Ready R o (Ahead 0) n (i + 1) (s.passBreak w) (t.passBreak w) := by
  have hm : t.mark = s.mark := by rw [h.onto]; rfl
  obtain ⟨hrel, hs, ht⟩ := R.below h.rel (h0 _ h.ahead)
  rw [h.width, hw _ h.ahead] at hrel ht
  rw [hw _ h.ahead] at hs
  unfold Scanner.passBreak
  rw [hm]
  refine h.move (w := s.mark.below 1) hrel ?_ ?_ (Nat.lt_succ_self _) (.inl (Nat.lt_succ_self _))
    trivial
  · simp only [Mark.below]
    omega
  · simp only [Mark.below]
    omega

theorem Ready.passCrlf (h : Ready R o (Shows (isCrlf · = true)) (n + 2) i s t) :
    Ready R o (Ahead 0) n (i + 1) s.passCrlf t.passCrlf := by
  have hm : t.mark = s.mark := by rw [h.onto]; rfl
  obtain ⟨hrel, hs, ht⟩ := R.crlf h.rel h.ahead
  unfold Scanner.passCrlf
  rw [hm]
  refine h.move (w := s.mark.below 2) hrel ?_ ?_ (Nat.lt_add_of_pos_right (by decide))
    (.inl (Nat.lt_succ_self _)) trivial
  · simp only [Mark.below]
    omega
  · simp only [Mark.below]
    omega

end Pass

namespace Sim

section Steps

variable {p q : View → Prop}

theorem skipTo (h0 : ∀ v, p v → Inline v) (hq : ∀ v, p v → q (next v)) :
    Sim (Ready R o (Shows p) (n + 1) i) skip skip (fun _ => Ready R o (Shows q) n (i + 1))
      (Lost R o) :=
  fun _ _ h => ⟨rfl, h.passOver h0 hq⟩

theorem skip : Sim (Ready R o (Ahead (k + 1)) (n + 1) i) skip skip
    (fun _ => Ready R o (Ahead k) n (i + 1)) (Lost R o) :=
  skipTo (fun _ h => h.1) fun _ h => h.2

theorem skips : ∀ {c k n i : Nat},
    Sim (Ready R o (Ahead (k + c)) (n + c) i) (skips c) (skips c)
      (fun _ => Ready R o (Ahead k) n (i + c)) (Lost R o)
  | 0, _, _, _ => pure
  | c + 1, k, n, i => by
    refine (skip (k := k + c) (n := n + c)).bind fun _ => ?_
    rw [← Nat.add_assoc, Nat.add_right_comm]
    exact skips

theorem read {string : Bytes} : Sim (Ready R o (Ahead (k + 1)) (n + 1) i) (read string) (read string)
    (fun _ => Ready R o (Ahead k) n (i + 1)) (Lost R o) :=
  lookAt Local.character fun _ => skip.bind fun _ => pure

theorem ifShows {Q : β → Scanner ι → Scanner κ → Prop}
    {E : Fault → Scanner ι → Scanner κ → Prop} {c : View → Bool} {q r : View → Prop}
    {x y : ScanM ι β} {x' y' : ScanM κ β} (hc : Local n c)
    (ht : ∀ v, p v → c v = true → q v) (hf : ∀ v, p v → c v = false → r v)
    (hx : Sim (Ready R o (Shows q) n i) x x' Q E)
    (hy : Sim (Ready R o (Shows r) n i) y y' Q E) :
    Sim (Ready R o (Shows p) n i) (Scanner.look c >>= fun b => if b = true then x else y)
      (Scanner.look c >>= fun b => if b = true then x' else y') Q E :=
  ifLook hc (fun _ h e => ht _ h e) (fun _ h e => hf _ h e) hx hy

theorem passBreak {w : Nat} (h0 : ∀ v, p v → isBreak v = true) (hw : ∀ v, p v → width v = w) :
    Sim (Ready R o (Shows p) (n + 1) i) (modify (passBreak w)) (modify (passBreak w))
      (fun _ => Ready R o (Ahead 0) n (i + 1)) (Lost R o) :=
  fun _ _ h => ⟨rfl, h.passBreak h0 hw⟩

theorem passCrlf : Sim (Ready R o (Shows (isCrlf · = true)) (n + 2) i) (modify passCrlf)
    (modify passCrlf) (fun _ => Ready R o (Ahead 0) n (i + 1)) (Lost R o) :=
  fun _ _ h => ⟨rfl, h.passCrlf⟩

/-- Where a line break is known to be, it is passed. -/
theorem readLine {string : Bytes} {e : Nat} (hi : e ≤ i + 1)
    (hp : ∀ v, p v → isBreak v = false → e ≤ i) :
    Sim (Ready R o (Shows p) 2 i) (readLine string) (readLine string)
      (fun _ => Ready R o (Ahead 0) 0 e) (Lost R o) := by
  have done : ∀ {b : Bytes} {n : Nat}, Sim (Ready R o (Ahead 0) n (i + 1)) (Pure.pure b)
      (Pure.pure b) (fun _ => Ready R o (Ahead 0) 0 e) (Lost R o) :=
    Fallible.Sim.pure fun _ _ h => h.weaken (fun h => h) (Nat.zero_le _) hi
  refine ifShows Local.isCrlf (fun _ _ h => h) (fun _ h h' => And.intro h h')
    (passCrlf.bind fun _ => done) ?_
  refine ifShows (q := fun v => v 0 = octet '\r' ∨ v 0 = octet '\n')
    (Local.or Local.check Local.check) (fun _ _ h => by simpa [checkAt] using h)
    (fun _ h h' => And.intro h.1 h') ((passBreak (w := 1) ?_ ?_).bind fun _ => done) ?_
  · intro v h
    rcases h with h | h <;> simp [isBreak, isBreakAt, checkAt, h]
  · rintro v (h | h) <;> exact width_ascii (by rw [h]; decide)
  refine ifShows (q := fun v => v 0 = 0xC2 ∧ v 1 = 0x85)
    (Local.pair (g := (· == 0x85)) (by decide) (by decide))
    (fun _ _ h => by simpa using h) (fun _ h h' => And.intro h h')
    ((passBreak (w := 2) ?_ ?_).bind fun _ => done) ?_
  · intro v h
    simp [isBreak, isBreakAt, h.1, h.2]
  · intro v h
    unfold width widthAt
    rw [h.1]
    decide
  have separator : Local 2 fun v => v 0 == 0xE2 && v 1 == 0x80 && (v 2 == 0xA8 || v 2 == 0xA9) := by
    intro v w h
    have := Local.triple (b := 0xE2) (g := fun x y => x == 0x80 && (y == 0xA8 || y == 0xA9))
      (by decide) (by decide) v w h
    simpa only [Bool.and_assoc] using this
  have bytes : ∀ v w, Agree 2 v w → v 0 = 0xE2 → [v 0, v 1, v 2] = [w 0, w 1, w 2] := by
    intro v w h hb
    have hw : width v = 3 := by
      unfold width widthAt
      rw [hb]
      decide
    have h0 : v 0 ≠ 0 := by rw [hb]; decide
    rw [h.head, h.within h0 (by omega : 1 < width v), h.within h0 (by omega : 2 < width v)]
  refine ifShows (q := fun v => v 0 = 0xE2 ∧ isBreak v = true) separator
    (fun v _ h => ?_) (fun _ h h' => And.intro h h')
    (look (fun _ h w hw => bytes _ w hw h.1) fun _ => ((passBreak (w := 3) ?_ ?_).of fun _ _ h =>
      h.weaken And.left le_rfl le_rfl).bind fun _ => done) ?_
  · simp only [Bool.and_eq_true, Bool.or_eq_true, beq_iff_eq] at h
    obtain ⟨⟨h0, h1⟩, h2 | h2⟩ := h <;> exact ⟨h0, by simp [isBreak, isBreakAt, h0, h1, h2]⟩
  · exact fun v h => h.2
  · intro v h
    unfold width widthAt
    rw [h.1]
    decide
  refine Fallible.Sim.pure fun s t h => h.weaken (fun _ => trivial) (Nat.zero_le _) ?_
  obtain ⟨⟨⟨h, h1⟩, h2⟩, h3⟩ := h.ahead
  refine hp _ h ?_
  simp only [isBreak, isBreakAt, Nat.zero_add]
  simp only [h1, h2, Bool.false_or]
  simpa only [Bool.and_or_distrib_left] using h3

theorem skipLine (hp : ∀ v, p v → isBreak v = true) :
    Sim (Ready R o (Shows p) 2 i) skipLine skipLine (fun _ => Ready R o (Ahead 0) 0 (i + 1))
      (Lost R o) := by
  refine ifShows Local.isCrlf (fun _ _ h => h) (fun _ h _ => h) (passCrlf.into ?_) ?_
  · exact fun _ _ _ h => h
  refine ifShows (q := p) (r := fun _ => False) Local.isBreak (fun _ h _ => h)
    (fun v h h' => by rw [hp v h] at h'; cases h') (look (fun _ _ _ h => Local.width _ _ h) ?_)
    (Fallible.Sim.pure fun _ _ h => h.ahead.elim)
  intro w
  refine Fallible.Sim.weaken (A := Ready R o (Shows fun v => p v ∧ width v = w) 2 i)
    (passBreak (fun v h => hp v h.1) fun _ h => h.2) (fun _ _ h => h) ?_
    fun _ _ _ h => h
  exact fun _ _ _ h => h.weaken (fun h => h) (Nat.zero_le _) le_rfl

end Steps

section Loops

variable {p q : View → Prop}

/-- A loop of the scanner: each round that is not the last passes a character, so the rounds are
within the bound on both sides. -/
theorem roundsFrom {P : Nat → α → Scanner ι → Prop} {d : Nat → Nat}
    {Q : Scanner ι × Scanner κ → β → Scanner ι → Scanner κ → Prop}
    {body : α → ScanM ι (Round α β)} {body' : α → ScanM κ (Round α β)} {a : α}
    (hQ : ∀ {o s t b s' t'}, Q (s, t) b s' t' → Since o.1 s → Since o.2 t → Q o b s' t')
    (h : ∀ o' c a j, o'.1.kept = o.1.kept → i + c ≤ j → Sim (Ready R o' (P c a) (d c) j) (body a) (body' a)
      (Round.elim (fun a => Ready R o' (P (c + 1) a) (d (c + 1)) (j + 1)) (Q o')) (Lost R o')) :
    Sim (Ready R o (P 0 a) (d 0) i) (repeatedly body a) (repeatedly body' a) (Q o) (Lost R o) := by
  refine Fallible.Sim.each fun s t hst => ?_
  have hm : t.mark = s.mark := by rw [hst.onto]; rfl
  have hend : ∀ c a s' t', Ready R (s, t) (P c a) (d c) (s.mark.index + c) s' t' →
      c < Input.size s.input + 1 ∧ c < Input.size t.input + 1 := by
    intro c a s' t' h
    have hm' : t'.mark = s'.mark := by rw [h.onto]; rfl
    have := h.index
    have hl := h.left.size
    have hr := h.right.size
    simp only [hm, hm'] at hl hr
    omega
  have hloop := Fallible.Sim.loop (e := .outOfFuel) hend (fun c a => h (s, t) c a (s.mark.index + c)
    hst.left.kept (Nat.add_le_add_right hst.index c)) 0 a
  rintro s t ⟨rfl, rfl⟩
  refine (hloop.weaken (fun _ _ h => h) (fun b s' t' h => hQ h hst.left hst.right)
    fun e s' t' h => h.trans hst.left) s t ?_
  exact ⟨hst.onto, hst.rel, hst.ahead, le_rfl, .refl s, .refl t⟩

theorem rounds {P : Nat → α → Scanner ι → Prop} {d : Nat → Nat}
    {Q : Scanner ι × Scanner κ → β → Scanner ι → Scanner κ → Prop}
    {body : α → ScanM ι (Round α β)} {body' : α → ScanM κ (Round α β)} {a : α}
    (hQ : ∀ {o s t b s' t'}, Q (s, t) b s' t' → Since o.1 s → Since o.2 t → Q o b s' t')
    (h : ∀ o c a j, i + c ≤ j → Sim (Ready R o (P c a) (d c) j) (body a) (body' a)
      (Round.elim (fun a => Ready R o (P (c + 1) a) (d (c + 1)) (j + 1)) (Q o)) (Lost R o)) :
    Sim (Ready R o (P 0 a) (d 0) i) (repeatedly body a) (repeatedly body' a) (Q o) (Lost R o) :=
  roundsFrom hQ fun o' c a j _ hj => h o' c a j hj

theorem repeatedlyFrom {P : α → Scanner ι → Prop} {Q : β → Scanner ι → Prop} {e : Nat}
    {body : α → ScanM ι (Round α β)} {body' : α → ScanM κ (Round α β)} {a : α}
    (h : ∀ o' a j, o'.1.kept = o.1.kept → i ≤ j → Sim (Ready R o' (P a) n j) (body a) (body' a)
      (Round.elim (fun a => Ready R o' (P a) n (j + 1)) fun b => Ready R o' (Q b) m e) (Lost R o')) :
    Sim (Ready R o (P a) n i) (repeatedly body a) (repeatedly body' a)
      (fun b => Ready R o (Q b) m e) (Lost R o) :=
  roundsFrom (P := fun _ => P) (d := fun _ => n) (Q := fun o b => Ready R o (Q b) m e)
    (fun h => h.trans) fun o' _ a j hk hj => h o' a j hk (by omega)

theorem repeatedly {P : α → Scanner ι → Prop} {Q : β → Scanner ι → Prop} {e : Nat}
    {body : α → ScanM ι (Round α β)} {body' : α → ScanM κ (Round α β)} {a : α}
    (h : ∀ o a j, i ≤ j → Sim (Ready R o (P a) n j) (body a) (body' a)
      (Round.elim (fun a => Ready R o (P a) n (j + 1)) fun b => Ready R o (Q b) m e) (Lost R o)) :
    Sim (Ready R o (P a) n i) (repeatedly body a) (repeatedly body' a)
      (fun b => Ready R o (Q b) m e) (Lost R o) :=
  repeatedlyFrom fun o' a j _ hj => h o' a j hj

/-- The end of a round. -/
theorem round {P : Scanner ι → Prop} {j : Nat} {r : Round α β}
    {Q : Round α β → Scanner ι → Scanner κ → Prop} (h : ∀ s t, Ready R o P n j s t → Q r s t) :
    Sim (Ready R o P n j) (Pure.pure r) (Pure.pure r) Q (Lost R o) :=
  Fallible.Sim.pure h

/-- A conditional step. -/
theorem onlyIf {b : Bool} {x : ScanM ι Unit} {y : ScanM κ Unit} {n' i' : Nat} (hn : n' ≤ n)
    (hi : i' ≤ i) (hx : b = true → Sim (Ready R o P n i) x y (fun _ => Ready R o P' n' i') (Lost R o))
    (hP : b = false → ∀ s, P s → P' s) :
    Sim (Ready R o P n i) (onlyIf b x) (onlyIf b y) (fun _ => Ready R o P' n' i') (Lost R o) := by
  cases b with
  | true => exact hx rfl
  | false => exact Fallible.Sim.pure fun s _ h => h.weaken (hP rfl s) hn hi

/-- Either `i` characters have been left behind, or there is `p`. -/
def Moved (i : Nat) (p : Scanner ι → Prop) (s : Scanner ι) : Prop := i < s.mark.index ∨ p s

theorem moved {x : ScanM ι β} {y : ScanM κ β} {Q : β → Scanner ι → Scanner κ → Prop}
    (h : Sim (Ready R o (Ahead 0) n (i + 1)) x y Q (Lost R o))
    (h' : Sim (Ready R o A n i) x y Q (Lost R o)) :
    Sim (Ready R o (Moved i A) n i) x y Q (Lost R o) := by
  intro s t hst
  rcases hst.ahead with hi | hA
  · exact h s t ⟨hst.onto, hst.rel, trivial, hi, hst.left, hst.right⟩
  · exact h' s t ⟨hst.onto, hst.rel, hA, hst.index, hst.left, hst.right⟩

/-- While the loop runs it moves; where it does not run at all, what was there is still there. -/
theorem readWhile {c : View → Bool} (hc : Local 1 c) (h0 : ∀ v, c v = true → Inline v)
    {string : Bytes} :
    Sim (Ready R o (Shows p) 1 i) (readWhile c string) (readWhile c string)
      (fun _ => Ready R o (Moved i (Shows fun v => p v ∧ c v = false)) 1 i) (Lost R o) := by
  refine Fallible.Sim.of (A := Ready R o (Moved i (Shows p)) 1 i) ?_
    fun s t h => h.weaken .inr le_rfl le_rfl
  refine repeatedly (P := fun _ => Moved i (Shows p)) fun o _ j hj => ?_
  refine ifLook (A := Ahead 1)
    (B := Moved i (Shows fun v => p v ∧ c v = false)) hc (fun s _ h => ⟨h0 _ h, trivial⟩) (fun s h h' => ?_) ?_ ?_
  · exact h.imp_right fun h => ⟨h, h'⟩
  · refine read.bind fun _ => cacheThen (by omega) (by omega) fun _ => round fun s t h => ?_
    have := h.index
    exact h.weaken (fun _ => .inl (by omega)) le_rfl le_rfl
  · exact round fun _ _ h => h.weaken (fun h => h) le_rfl hj

theorem skipWhile {c : View → Bool} (hc : Local 1 c) (h0 : ∀ v, c v = true → Inline v) :
    Sim (Ready R o P 1 i) (skipWhile c) (skipWhile c) (fun _ => Ready R o (Ahead 0) 1 i)
      (Lost R o) := by
  refine Fallible.Sim.of (A := Ready R o (Ahead 0) 1 i) ?_
    fun s t h => h.weaken (fun _ => trivial) le_rfl le_rfl
  refine repeatedly (P := fun _ => Ahead 0) fun o _ j hj => ?_
  refine ifShows (q := Solid 1) hc (fun v _ h => ⟨h0 v h, trivial⟩) (fun _ h _ => h) ?_ ?_
  · exact skip.bind fun _ => cacheThen (by omega) (by omega) fun _ => round fun _ _ h => h
  · exact round fun _ _ h => h.weaken (fun h => h) le_rfl hj

end Loops

end Sim

end Scanner

end LibYaml
