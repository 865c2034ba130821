import Mathlib.Logic.Relation

/-!
# Computations over a state that may fail

`EStateM ε σ` is the shape of the library's functions: they read and write one structure and
either succeed or fail, and a failed call keeps what it had written.  The rules here take such
computations apart one `bind` at a time: `Holds` is about one run, `Keeps` about what a run leaves
as it is, `Sim` about two runs side by side.
-/

namespace Fallible

open EStateM (Result)

variable {ε σ α β : Type}

section Apply

theorem bind_apply (x : EStateM ε σ α) (f : α → EStateM ε σ β) (s : σ) :
    (x >>= f) s = match x s with
      | .ok a s' => f a s'
      | .error e s' => .error e s' := rfl

@[simp] theorem pure_apply (a : α) (s : σ) : (pure a : EStateM ε σ α) s = .ok a s := rfl

@[simp] theorem throw_apply (e : ε) (s : σ) :
    (throw e : EStateM ε σ α) s = .error e s := rfl

@[simp] theorem get_apply (s : σ) : (get : EStateM ε σ σ) s = .ok s s := rfl

@[simp] theorem set_apply (s t : σ) : (set t : EStateM ε σ PUnit) s = .ok ⟨⟩ t := rfl

@[simp] theorem modify_apply (f : σ → σ) (s : σ) :
    (modify f : EStateM ε σ PUnit) s = .ok ⟨⟩ (f s) := rfl

theorem bind_ok {x : EStateM ε σ α} {f : α → EStateM ε σ β} {s t : σ} {b : β}
    (h : (x >>= f) s = .ok b t) : ∃ a s', x s = .ok a s' ∧ f a s' = .ok b t := by
  rw [bind_apply] at h
  cases hx : x s with
  | ok a s' => exact ⟨a, s', rfl, by simpa [hx] using h⟩
  | error e s' => simp [hx] at h

theorem bind_of_ok {x : EStateM ε σ α} {f : α → EStateM ε σ β} {s s' : σ} {a : α}
    (h : x s = .ok a s') : (x >>= f) s = f a s' := by
  rw [bind_apply, h]

theorem bind_of_error {x : EStateM ε σ α} {f : α → EStateM ε σ β} {s s' : σ} {e : ε}
    (h : x s = .error e s') : (x >>= f) s = .error e s' := by
  rw [bind_apply, h]

/-- Whether the run has succeeded and `c` accepts what it came to. -/
def passes (c : α → σ → Bool) : Result ε σ α → Bool
  | .ok a s => c a s
  | .error _ _ => false

theorem exists_ok {c : α → σ → Bool} {r : Result ε σ α} (h : passes c r = true) :
    ∃ a s, r = .ok a s ∧ c a s = true := by
  cases r with
  | ok a s => exact ⟨a, s, rfl, h⟩
  | error e s => cases h

end Apply

/-- `x` where `c` holds, nothing elsewhere. -/
def onlyIf (c : Bool) (x : EStateM ε σ PUnit) : EStateM ε σ PUnit := if c then x else pure ⟨⟩

/-- What a round of a loop comes to. -/
inductive Round (α β : Type)
  | again (a : α)
  | leave (b : β)

def Round.elim {γ : Type*} (again : α → γ) (leave : β → γ) : Round α β → γ
  | .again a => again a
  | .leave b => leave b

/-- Rounds until one leaves; the loop fails with `e` where none of the first `n` does. -/
def loop (e : ε) (body : α → EStateM ε σ (Round α β)) : Nat → α → EStateM ε σ β
  | 0, _ => throw e
  | n + 1, a => do
    match ← body a with
    | .again a => loop e body n a
    | .leave b => pure b

/-- A loop that has ended ends so with more rounds, too. -/
theorem loop_more {e : ε} {body : α → EStateM ε σ (Round α β)} : ∀ {n : Nat} {a : α} {s t : σ}
    {b : β}, loop e body n a s = .ok b t → ∀ k, loop e body (n + k) a s = .ok b t
  | 0, a, s, t, b, h, k => by
    rw [loop] at h
    cases h
  | n + 1, a, s, t, b, h, k => by
    rw [Nat.add_right_comm, loop]
    rw [loop] at h
    obtain ⟨r, s', hr, h⟩ := bind_ok h
    rw [bind_of_ok hr]
    cases r with
    | again a => exact loop_more h k
    | leave b => exact h

/-- From a state with `P`, the run ends with `Q` if it succeeds and with `E` if it fails. -/
def Holds (P : σ → Prop) (x : EStateM ε σ α) (Q : α → σ → Prop) (E : ε → σ → Prop) : Prop :=
  ∀ s, P s → match x s with
    | .ok a t => Q a t
    | .error e t => E e t

namespace Holds

variable {P P' : σ → Prop} {Q Q' : α → σ → Prop} {E E' : ε → σ → Prop} {x : EStateM ε σ α}

theorem pure {a : α} (h : ∀ s, P s → Q a s) : Holds P (pure a) Q E := h

theorem throw {e : ε} (h : ∀ s, P s → E e s) : Holds P (throw e) Q E := h

theorem get {Q : σ → σ → Prop} (h : ∀ s, P s → Q s s) : Holds P get Q E := h

/-- What a run does that looks at its state first may be followed from each state. -/
theorem getThen {f : σ → EStateM ε σ β} {R : β → σ → Prop} (h : ∀ s, P s → Holds (· = s) (f s) R E) :
    Holds P (MonadState.get >>= f) R E :=
  fun s hs => h s hs s rfl

theorem set {t : σ} {Q : PUnit → σ → Prop} (h : ∀ s, P s → Q ⟨⟩ t) : Holds P (set t) Q E := h

theorem modify {f : σ → σ} {Q : PUnit → σ → Prop} (h : ∀ s, P s → Q ⟨⟩ (f s)) :
    Holds P (modify f) Q E := h

theorem bind {f : α → EStateM ε σ β} {R : β → σ → Prop} (hx : Holds P x Q E)
    (hf : ∀ a, Holds (Q a) (f a) R E) : Holds P (x >>= f) R E := by
  intro s hs
  have h := hx s hs
  rw [bind_apply]
  cases hxs : x s with
  | ok a t => rw [hxs] at h; exact hf a t h
  | error e t => rw [hxs] at h; exact h

theorem ite {c : Prop} [Decidable c] {y : EStateM ε σ α} (hx : c → Holds P x Q E)
    (hy : ¬c → Holds P y Q E) : Holds P (if c then x else y) Q E := by
  split
  · exact hx ‹_›
  · exact hy ‹_›

theorem weaken (h : Holds P' x Q' E') (hP : ∀ s, P s → P' s) (hQ : ∀ a s, Q' a s → Q a s)
    (hE : ∀ e s, E' e s → E e s) : Holds P x Q E := by
  intro s hs
  have := h s (hP s hs)
  cases hx : x s with
  | ok a t => rw [hx] at this; exact hQ a t this
  | error e t => rw [hx] at this; exact hE e t this

theorem const {A : Prop} (h : A) : Holds P x (fun _ _ => A) fun _ _ => True := by
  intro s _
  cases x s with
  | ok _ _ => exact h
  | error _ _ => trivial

/-- A loop whose rounds keep `P` until one leaves with `Q`. -/
theorem loop {e : ε} {body : α → EStateM ε σ (Round α β)} {P : α → σ → Prop} {Q : β → σ → Prop}
    (hE : ∀ a s, P a s → E e s) (h : ∀ a, Holds (P a) (body a) (Round.elim P Q) E) :
    ∀ (n : Nat) (a : α), Holds (P a) (Fallible.loop e body n a) Q E
  | 0, a => throw (hE a)
  | n + 1, a => (h a).bind fun r => by
    cases r with
    | again a => exact loop hE h n a
    | leave b => exact pure fun _ h => h

/-- A loop of which `P` says in how many rounds it is over. -/
theorem loopDown {e : ε} {body : α → EStateM ε σ (Round α β)} {P : Nat → α → σ → Prop} {Q : β → σ → Prop}
    (h0 : ∀ a s, ¬P 0 a s) (h : ∀ n a, Holds (P (n + 1) a) (body a) (Round.elim (P n) Q) E) :
    ∀ (n : Nat) (a : α), Holds (P n a) (Fallible.loop e body n a) Q E
  | 0, a => throw fun s hs => absurd hs (h0 a s)
  | n + 1, a => (h n a).bind fun r => by
    cases r with
    | again a => exact loopDown h0 h n a
    | leave b => exact pure fun _ h => h

/-- What holds from all states with `P` holds from each of them. -/
theorem each {s : σ} (h : Holds P x Q E) (hs : P s) : Holds (· = s) x Q E :=
  h.weaken (fun _ ht => ht ▸ hs) (fun _ _ h => h) fun _ _ h => h

/-- A run that cannot fail. -/
theorem total (h : Holds P x Q fun _ _ => False) : Holds P x Q E :=
  h.weaken (fun _ h => h) (fun _ _ h => h) fun _ _ h => h.elim

theorem ok {s t : σ} {a : α} (h : Holds P x Q E) (hs : P s) (hx : x s = .ok a t) : Q a t := by
  have := h s hs
  rwa [hx] at this

theorem error {s t : σ} {e : ε} (h : Holds P x Q E) (hs : P s) (hx : x s = .error e t) : E e t := by
  have := h s hs
  rwa [hx] at this

end Holds

/-- The run from `s` succeeds, with `Q`. -/
def Yields (x : EStateM ε σ α) (s : σ) (Q : α → σ → Prop) : Prop := ∃ a t, x s = .ok a t ∧ Q a t

namespace Yields

variable {x : EStateM ε σ α} {s t : σ} {a : α} {Q R : α → σ → Prop}

theorem of_ok (h : x s = .ok a t) (hq : Q a t) : Yields x s Q := ⟨a, t, h, hq⟩

theorem weaken (h : Yields x s R) (hq : ∀ a t, R a t → Q a t) : Yields x s Q := by
  obtain ⟨a, t, hx, hr⟩ := h
  exact ⟨a, t, hx, hq a t hr⟩

theorem bind {f : α → EStateM ε σ β} {Q : β → σ → Prop} (h : Yields x s R)
    (hf : ∀ a t, R a t → Yields (f a) t Q) : Yields (x >>= f) s Q := by
  obtain ⟨a, t, hx, hr⟩ := h
  obtain ⟨b, u, hb, hq⟩ := hf a t hr
  exact ⟨b, u, (bind_of_ok hx).trans hb, hq⟩

theorem step {f : α → EStateM ε σ β} {Q : β → σ → Prop} (h : x s = .ok a t)
    (hf : Yields (f a) t Q) : Yields (x >>= f) s Q := by
  obtain ⟨b, u, hb, hq⟩ := hf
  exact ⟨b, u, (bind_of_ok h).trans hb, hq⟩

/-- A loop whose rounds keep `P` until one leaves with `Q`, each with a smaller state. -/
theorem loop {e : ε} {body : α → EStateM ε σ (Round α β)} {P : α → σ → Prop} {Q : β → σ → Prop}
    (size : σ → Nat)
    (h : ∀ a s, P a s → Yields (body a) s (Round.elim (fun a t => P a t ∧ size t < size s) Q)) :
    ∀ (n : Nat) (a : α) (s : σ), P a s → size s < n → Yields (Fallible.loop e body n a) s Q
  | 0, _, _, _, hn => absurd hn (Nat.not_lt_zero _)
  | n + 1, a, s, hP, hn => by
    refine (h a s hP).bind fun r t hr => ?_
    cases r with
    | again a => exact loop size h n a t hr.1 (by have := hr.2; omega)
    | leave b => exact ⟨b, t, rfl, hr⟩

end Yields

/-- The run leaves what `v` shows of the state as it is, and fails only as `E` allows. -/
def Keeps {τ : Type} (v : σ → τ) (E : ε → Prop) (x : EStateM ε σ α) : Prop :=
  ∀ k, Holds (v · = k) x (fun _ s => v s = k) (fun e s => v s = k ∧ E e)

namespace Keeps

variable {τ : Type} {v : σ → τ} {E : ε → Prop} {x : EStateM ε σ α}

@[simp] theorem pure {a : α} : Keeps v E (pure a) := fun _ => Holds.pure fun _ h => h

@[simp] theorem throw {e : ε} (h : E e) : Keeps v E (throw e : EStateM ε σ α) :=
  fun _ => Holds.throw fun _ hs => ⟨hs, h⟩

@[simp] theorem get : Keeps v E (get : EStateM ε σ σ) := fun _ => Holds.get fun _ h => h

@[simp] theorem modify {f : σ → σ} (h : ∀ s, v (f s) = v s) :
    Keeps v E (modify f : EStateM ε σ PUnit) :=
  fun _ => Holds.modify fun s hs => (h s).trans hs

@[simp] theorem bind {f : α → EStateM ε σ β} (hx : Keeps v E x) (hf : ∀ a, Keeps v E (f a)) :
    Keeps v E (x >>= f) :=
  fun k => (hx k).bind fun a => hf a k

@[simp] theorem ite {c : Prop} [Decidable c] {y : EStateM ε σ α} (hx : Keeps v E x)
    (hy : Keeps v E y) : Keeps v E (if c then x else y) :=
  fun k => Holds.ite (fun _ => hx k) fun _ => hy k

@[simp] theorem onlyIf {c : Bool} {x : EStateM ε σ PUnit} (hx : Keeps v E x) :
    Keeps v E (onlyIf c x) :=
  ite hx pure

@[simp] theorem forM {l : List β} {f : β → EStateM ε σ PUnit} (hf : ∀ b, Keeps v E (f b)) :
    Keeps v E (l.forM f) := by
  induction l with
  | nil => exact pure
  | cons b l ih => exact bind (hf b) fun _ => ih

theorem loop {e : ε} (he : E e) {body : α → EStateM ε σ (Round α β)} (h : ∀ a, Keeps v E (body a)) (n : Nat) (a : α) :
    Keeps v E (Fallible.loop e body n a) :=
  fun k => Holds.loop (P := fun _ s => v s = k) (fun _ _ hs => ⟨hs, he⟩)
    (fun a => (h a k).weaken (fun _ hs => hs) (fun r _ hs => by cases r <;> exact hs) fun _ _ hs => hs) n a

theorem getThen {f : σ → EStateM ε σ β} (h : ∀ s, Keeps v E (f s)) : Keeps v E (MonadState.get >>= f) :=
  bind get h

/-- What runs behind `x` starts with the same view. -/
theorem andThen {k : τ} {f : α → EStateM ε σ β} {Q : β → σ → Prop} {F : ε → σ → Prop}
    (hx : Keeps v E x) (hF : ∀ e s, v s = k → E e → F e s)
    (hf : ∀ a, Holds (v · = k) (f a) Q F) : Holds (v · = k) (x >>= f) Q F :=
  ((hx k).weaken (fun _ h => h) (fun _ _ h => h) fun e s h => hF e s h.1 h.2).bind hf

/-- A smaller view is kept where a larger one is. -/
theorem mono {τ' : Type} {v' : σ → τ'} (hx : Keeps v E x) (g : τ → τ') (hv : ∀ s, v' s = g (v s)) :
    Keeps v' E x := by
  rintro _ s rfl
  have h := hx (v s) s rfl
  cases hxs : x s with
  | ok a t => rw [hxs] at h; exact (hv t).trans ((congrArg g h).trans (hv s).symm)
  | error e t => rw [hxs] at h; exact ⟨(hv t).trans ((congrArg g h.1).trans (hv s).symm), h.2⟩

end Keeps

/-- Two runs side by side: from states that `P` relates, both succeed with one value and `Q` relates
the states they end in, or both fail in one way and `E` does. -/
def Sim {τ : Type} (P : σ → τ → Prop) (x : EStateM ε σ α) (y : EStateM ε τ α)
    (Q : α → σ → τ → Prop) (E : ε → σ → τ → Prop) : Prop :=
  ∀ s t, P s t → match x s, y t with
    | .ok a s', .ok b t' => a = b ∧ Q a s' t'
    | .error e s', .error f t' => e = f ∧ E e s' t'
    | _, _ => False

namespace Sim

variable {τ : Type} {P A : σ → τ → Prop} {Q Q' : α → σ → τ → Prop} {E E' : ε → σ → τ → Prop}
  {x : EStateM ε σ α} {y : EStateM ε τ α}

theorem pure {a : α} (h : ∀ s t, P s t → Q a s t) : Sim P (pure a) (pure a) Q E :=
  fun s t hst => ⟨rfl, h s t hst⟩

theorem throw {e : ε} (h : ∀ s t, P s t → E e s t) : Sim P (throw e) (throw e) Q E :=
  fun s t hst => ⟨rfl, h s t hst⟩

theorem bind {f : α → EStateM ε σ β} {g : α → EStateM ε τ β} {R : β → σ → τ → Prop}
    (hx : Sim P x y Q E) (hf : ∀ a, Sim (Q a) (f a) (g a) R E) :
    Sim P (x >>= f) (y >>= g) R E := by
  intro s t hst
  have h := hx s t hst
  rw [bind_apply, bind_apply]
  cases hxs : x s <;> cases hyt : y t <;> rw [hxs, hyt] at h <;> try exact h.elim
  · obtain ⟨rfl, h⟩ := h
    exact hf _ _ _ h
  · exact h

/-- What the first run comes to may be known. -/
theorem bindOf {f : α → EStateM ε σ β} {g : α → EStateM ε τ β} {R : β → σ → τ → Prop} {A : α → Prop}
    (hx : Sim P x y Q E) (ha : Holds (fun _ => True) x (fun a _ => A a) fun _ _ => True)
    (hf : ∀ a, A a → Sim (Q a) (f a) (g a) R E) : Sim P (x >>= f) (y >>= g) R E := by
  intro s t hst
  have h := hx s t hst
  have ha := ha s trivial
  rw [bind_apply, bind_apply]
  cases hxs : x s <;> cases hyt : y t <;> rw [hxs, hyt] at h <;> try exact h.elim
  · obtain ⟨rfl, h⟩ := h
    rw [hxs] at ha
    exact hf _ ha _ _ h
  · exact h

theorem weaken (h : Sim A x y Q' E') (hP : ∀ s t, P s t → A s t)
    (hQ : ∀ a s t, Q' a s t → Q a s t) (hE : ∀ e s t, E' e s t → E e s t) : Sim P x y Q E := by
  intro s t hst
  have := h s t (hP s t hst)
  cases hxs : x s <;> cases hyt : y t <;> rw [hxs, hyt] at this <;> try exact this.elim
  · exact ⟨this.1, hQ _ _ _ this.2⟩
  · exact ⟨this.1, hE _ _ _ this.2⟩

theorem of (h : Sim A x y Q E) (hP : ∀ s t, P s t → A s t) : Sim P x y Q E :=
  h.weaken hP (fun _ _ _ h => h) fun _ _ _ h => h

theorem into (h : Sim P x y Q' E) (hQ : ∀ a s t, Q' a s t → Q a s t) : Sim P x y Q E :=
  h.weaken (fun _ _ h => h) hQ fun _ _ _ h => h

theorem either (h : Sim P x y Q E) (h' : Sim A x y Q E) :
    Sim (fun s t => P s t ∨ A s t) x y Q E :=
  fun s t hst => hst.elim (h s t) (h' s t)

/-- It is enough to look at the runs from each pair of states. -/
theorem each (h : ∀ s t, P s t → Sim (fun s' t' => s' = s ∧ t' = t) x y Q E) : Sim P x y Q E :=
  fun s t hst => h s t hst s t ⟨rfl, rfl⟩

/-- `P k a` relates the states before round `k` with `a`, and none that come as late as either loop
ends. -/
theorem loop {e : ε} {m n : Nat} {P : Nat → α → σ → τ → Prop} {Q : β → σ → τ → Prop}
    {body : α → EStateM ε σ (Round α β)} {body' : α → EStateM ε τ (Round α β)}
    (hend : ∀ k a s t, P k a s t → k < m ∧ k < n)
    (h : ∀ k a, Sim (P k a) (body a) (body' a) (Round.elim (P (k + 1)) Q) E) (k : Nat) (a : α) :
    Sim (P k a) (Fallible.loop e body (m - k) a) (Fallible.loop e body' (n - k) a) Q E := by
  refine each fun s t hst => ?_
  obtain ⟨hm, hn⟩ := hend k a s t hst
  obtain ⟨i, hi⟩ : ∃ i, m - k = i + 1 := ⟨m - k - 1, by omega⟩
  obtain ⟨j, hj⟩ : ∃ j, n - k = j + 1 := ⟨n - k - 1, by omega⟩
  rw [hi, hj]
  refine ((h k a).of (by rintro _ _ ⟨rfl, rfl⟩; exact hst)).bind fun r => ?_
  cases r with
  | again a =>
    have ih : Sim (P (k + 1) a) (Fallible.loop e body (m - (k + 1)) a)
        (Fallible.loop e body' (n - (k + 1)) a) Q E := loop hend h (k + 1) a
    rwa [show m - (k + 1) = i by omega, show n - (k + 1) = j by omega] at ih
  | leave b => exact pure fun _ _ h => h
termination_by m - k

theorem ite {c : Prop} [Decidable c] {x' : EStateM ε σ α} {y' : EStateM ε τ α} (hx : c → Sim P x y Q E)
    (hy : ¬c → Sim P x' y' Q E) : Sim P (if c then x else x') (if c then y else y') Q E := by
  split
  · exact hx ‹_›
  · exact hy ‹_›

/-- What two runs do that look at their states first may be followed from each pair of states. -/
theorem getThen {f : σ → EStateM ε σ β} {g : τ → EStateM ε τ β} {R : β → σ → τ → Prop}
    (h : ∀ s t, P s t → Sim (fun s' t' => s' = s ∧ t' = t) (f s) (g t) R E) :
    Sim P (MonadState.get >>= f) (MonadState.get >>= g) R E :=
  fun s t hst => h s t hst s t ⟨rfl, rfl⟩

theorem modify {f : σ → σ} {g : τ → τ} {Q : PUnit → σ → τ → Prop} (h : ∀ s t, P s t → Q ⟨⟩ (f s) (g t)) :
    Sim P (modify f) (modify g) Q E :=
  fun s t hst => ⟨rfl, h s t hst⟩

/-- Two loops that go through as many rounds. -/
theorem rounds {e : ε} {body : α → EStateM ε σ (Round α β)} {body' : α → EStateM ε τ (Round α β)}
    {P : α → σ → τ → Prop} {Q : β → σ → τ → Prop} (hE : ∀ a s t, P a s t → E e s t)
    (h : ∀ a, Sim (P a) (body a) (body' a) (Round.elim P Q) E) :
    ∀ (n : Nat) (a : α), Sim (P a) (Fallible.loop e body n a) (Fallible.loop e body' n a) Q E
  | 0, a => throw (hE a)
  | n + 1, a => (h a).bind fun r => by
    cases r with
    | again a => exact rounds hE h n a
    | leave b => exact pure fun _ _ h => h

theorem ok {s s' : σ} {t : τ} {a : α} (h : Sim P x y Q E) (hst : P s t) (hx : x s = .ok a s') :
    ∃ t', y t = .ok a t' ∧ Q a s' t' := by
  have := h s t hst
  rw [hx] at this
  cases hyt : y t <;> rw [hyt] at this <;> try exact this.elim
  obtain ⟨rfl, h⟩ := this
  exact ⟨_, rfl, h⟩

theorem error {s s' : σ} {t : τ} {e : ε} (h : Sim P x y Q E) (hst : P s t)
    (hx : x s = .error e s') : ∃ t', y t = .error e t' ∧ E e s' t' := by
  have := h s t hst
  rw [hx] at this
  cases hyt : y t <;> rw [hyt] at this <;> try exact this.elim
  obtain ⟨rfl, h⟩ := this
  exact ⟨_, rfl, h⟩

end Sim

end Fallible
