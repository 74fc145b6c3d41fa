import Splice.Focus

/-!
# Successful runs

Operations on a program are computations that end in a value and a state or are refused.
What is proved about them is proved about successful runs: `action s = .ok a t` says that
`action` started in `s` ends with `a` in `t`. The lemmas here take such a run apart, step
by step and loop by loop.

`Keeps r action` says that every successful run of `action` leads from a state to one that
is related to it by `r`. It passes through sequencing and loops as soon as `r` is a
`StepRelation`, so that what an operation leaves alone is proved once for each of its
steps.

Three kinds of lemma come out of it. Those that take a successful run apart are equivalences and
end in `_ok`; those of the kind `Keeps` and `Leaves` say what an operation leaves alone, if it
succeeds or in any case; and `Succeeds`, `Returns` and `outcome` turn a run on a fixed input
into something that can be computed.
-/

namespace Splice

variable {ε δ σ τ α β γ : Type}

/-! ## Steps that keep the state they reach when they are refused -/

/-- A sequence succeeds exactly if its first part does and the second does in the state that the first
leads to. -/
theorem bind_ok {x : EStateM ε σ α} {f : α → EStateM ε σ β} {s t : σ} {b : β} :
    (x >>= f) s = .ok b t ↔ ∃ a u, x s = .ok a u ∧ f a u = .ok b t := by
  show EStateM.bind x f s = _ ↔ _
  unfold EStateM.bind
  cases x s with
  | ok a u =>
    constructor
    · intro h
      exact ⟨a, u, rfl, h⟩
    · rintro ⟨a', u', h, hf⟩
      injection h with ha hu
      subst ha hu
      exact hf
  | error cause u => simp

/-- After a step that is known, a run goes on from where the step ends. -/
theorem bind_run {x : EStateM ε σ α} {f : α → EStateM ε σ β} {s t : σ} {a : α}
    (h : x s = .ok a t) : (x >>= f) s = f a t := by
  show EStateM.bind x f s = _
  unfold EStateM.bind
  rw [h]

/-- After a step that is refused, so is the run. -/
theorem bind_error {x : EStateM ε σ α} {f : α → EStateM ε σ β} {s t : σ} {cause : ε}
    (h : x s = .error cause t) : (x >>= f) s = .error cause t := by
  show EStateM.bind x f s = _
  unfold EStateM.bind
  rw [h]

theorem pure_ok {a b : α} {s t : σ} :
    (pure a : EStateM ε σ α) s = .ok b t ↔ a = b ∧ s = t := by
  show EStateM.Result.ok a s = _ ↔ _
  simp

theorem throw_ok {cause : ε} {s t : σ} {a : α} :
    (throw cause : EStateM ε σ α) s = .ok a t ↔ False := by
  show EStateM.Result.error cause s = _ ↔ _
  simp

theorem get_ok {a s t : σ} : (get : EStateM ε σ σ) s = .ok a t ↔ a = s ∧ t = s := by
  show EStateM.Result.ok s s = _ ↔ _
  simp [eq_comm]

theorem modify_ok {f : σ → σ} {s t : σ} {a : PUnit} :
    (modify f : EStateM ε σ PUnit) s = .ok a t ↔ t = f s := by
  show EStateM.Result.ok PUnit.unit (f s) = _ ↔ _
  simp [eq_comm]

theorem modifyGet_ok {f : σ → α × σ} {s t : σ} {a : α} :
    (modifyGet f : EStateM ε σ α) s = .ok a t ↔ (f s).1 = a ∧ (f s).2 = t := by
  show EStateM.Result.ok (f s).1 (f s).2 = _ ↔ _
  simp

/-- To change what an action returns changes neither its success nor its state. -/
theorem map_ok {f : α → β} {x : EStateM ε σ α} {s t : σ} {b : β} :
    (f <$> x) s = .ok b t ↔ ∃ a, x s = .ok a t ∧ f a = b := by
  show EStateM.map f x s = _ ↔ _
  unfold EStateM.map
  cases x s with
  | ok a u =>
    simp only [EStateM.Result.ok.injEq]
    constructor
    · rintro ⟨hf, ht⟩
      exact ⟨a, ⟨rfl, ht⟩, hf⟩
    · rintro ⟨a', ⟨rfl, ht⟩, hf⟩
      exact ⟨hf, ht⟩
  | error cause u => simp

theorem discard_ok {x : EStateM ε σ α} {s t : σ} {b : PUnit} :
    (discard x) s = .ok b t ↔ ∃ a, x s = .ok a t := by
  show (Function.const α PUnit.unit <$> x) s = _ ↔ _
  simp [map_ok]

/-- An action whose result is not wanted is still refused for its cause. -/
theorem discard_error {x : EStateM ε σ α} {s t : σ} {cause : ε} (h : x s = .error cause t) :
    (discard x) s = .error cause t := by
  show EStateM.map (Function.const α PUnit.unit) x s = _
  unfold EStateM.map
  rw [h]

/-- An action on a part of the state succeeds exactly if it does so on the part alone, and the part that
it leads to is put back. -/
theorem focus_ok {part : σ → τ} {put : σ → τ → σ} {wrap : ε → δ} {action : EStateM ε τ α}
    {s t : σ} {a : α} :
    focus part put wrap action s = .ok a t
      ↔ ∃ inner, action (part s) = .ok a inner ∧ t = put s inner := by
  unfold focus
  cases action (part s) with
  | ok b inner =>
    simp only [EStateM.Result.ok.injEq]
    constructor
    · rintro ⟨hb, ht⟩
      exact ⟨inner, ⟨hb, rfl⟩, ht.symm⟩
    · rintro ⟨inner', ⟨hb, rfl⟩, ht⟩
      exact ⟨hb, ht.symm⟩
  | error cause inner => simp

/-- A result that is taken in succeeds exactly if it is one, and leaves the state alone. -/
theorem liftResult_ok {wrap : ε → δ} {x : Except ε α} {s t : σ} {a : α} :
    (liftResult wrap x : EStateM δ σ α) s = .ok a t ↔ x = .ok a ∧ s = t := by
  cases x with
  | ok b =>
    show EStateM.Result.ok b s = _ ↔ _
    simp
  | error cause =>
    show EStateM.Result.error (wrap cause) s = _ ↔ _
    simp

/-! ## Loops -/

theorem forM_nil_ok {f : α → EStateM ε σ PUnit} {s t : σ} {u : PUnit} :
    (([] : List α).forM f) s = .ok u t ↔ t = s := by
  show (pure PUnit.unit : EStateM ε σ PUnit) s = _ ↔ _
  rw [pure_ok]
  simp [eq_comm]

/-- A loop over a list that is not empty succeeds exactly if its first round does and the rest does from
there. -/
theorem forM_cons_ok {f : α → EStateM ε σ PUnit} {x : α} {xs : List α} {s t : σ} {u : PUnit} :
    ((x :: xs).forM f) s = .ok u t ↔ ∃ m, f x s = .ok ⟨⟩ m ∧ (xs.forM f) m = .ok u t := by
  show (f x >>= fun _ => xs.forM f) s = _ ↔ _
  rw [bind_ok]
  constructor
  · rintro ⟨a, m, h, ht⟩
    exact ⟨m, h, ht⟩
  · rintro ⟨m, h, ht⟩
    exact ⟨_, m, h, ht⟩

theorem foldlM_nil_ok {f : β → α → EStateM ε σ β} {b c : β} {s t : σ} :
    (([] : List α).foldlM f b) s = .ok c t ↔ b = c ∧ s = t := by
  rw [List.foldlM_nil, pure_ok]

theorem foldlM_cons_ok {f : β → α → EStateM ε σ β} {b c : β} {x : α} {xs : List α} {s t : σ} :
    ((x :: xs).foldlM f b) s = .ok c t
      ↔ ∃ b' m, f b x s = .ok b' m ∧ (xs.foldlM f b') m = .ok c t := by
  rw [List.foldlM_cons, bind_ok]

theorem mapM_nil_ok {f : α → EStateM ε σ β} {bs : List β} {s t : σ} :
    (([] : List α).mapM f) s = .ok bs t ↔ bs = [] ∧ s = t := by
  rw [List.mapM_nil, pure_ok]
  simp [eq_comm]

/-- Results are collected from the head of the list on, each from the state that the one before has led
to. -/
theorem mapM_cons_ok {f : α → EStateM ε σ β} {x : α} {xs : List α} {bs : List β} {s t : σ} :
    ((x :: xs).mapM f) s = .ok bs t
      ↔ ∃ b m bs', f x s = .ok b m ∧ (xs.mapM f) m = .ok bs' t ∧ bs = b :: bs' := by
  rw [List.mapM_cons, bind_ok]
  constructor
  · rintro ⟨b, m, hb, h⟩
    obtain ⟨bs', n, hbs, h⟩ := bind_ok.mp h
    obtain ⟨rfl, rfl⟩ := pure_ok.mp h
    exact ⟨b, m, bs', hb, hbs, rfl⟩
  · rintro ⟨b, m, bs', hb, hbs, rfl⟩
    exact ⟨b, m, hb, bind_ok.mpr ⟨bs', t, hbs, pure_ok.mpr ⟨rfl, rfl⟩⟩⟩

/-- The run that begins in `s` is not refused. -/
def Succeeds (action : EStateM ε σ α) (s : σ) : Bool :=
  match action s with
  | .ok _ _ => true
  | .error _ _ => false

/-- The state in which a run ends that begins in `s`. -/
def outcome (action : EStateM ε σ α) (s : σ) : σ :=
  match action s with
  | .ok _ t => t
  | .error _ t => t

/-- A run that was seen to succeed ends in its outcome. -/
theorem Succeeds.ok {action : EStateM ε σ α} {s : σ} (h : Succeeds action s = true) :
    ∃ a, action s = .ok a (outcome action s) := by
  unfold Succeeds at h
  unfold outcome
  cases hrun : action s with
  | ok a t => exact ⟨a, rfl⟩
  | error cause t =>
    rw [hrun] at h
    cases h

/-- The run that begins in `s` is not refused and returns `a`. -/
def Returns [DecidableEq α] (action : EStateM ε σ α) (s : σ) (a : α) : Bool :=
  match action s with
  | .ok b _ => b = a
  | .error _ _ => false

/-- A run that was seen to return a value returns that value in its outcome. -/
theorem Returns.ok [DecidableEq α] {action : EStateM ε σ α} {s : σ} {a : α}
    (h : Returns action s a = true) : action s = .ok a (outcome action s) := by
  unfold Returns at h
  unfold outcome
  cases hrun : action s with
  | ok b t =>
    rw [hrun] at h
    rw [of_decide_eq_true h]
  | error cause t =>
    rw [hrun] at h
    cases h

/-! ## What a computation leaves alone -/

/-- A relation that holds between a state and itself, and across two steps that keep it. -/
structure StepRelation (r : σ → σ → Prop) : Prop where
  refl : ∀ s, r s s
  trans : ∀ {s t u}, r s t → r t u → r s u

/-- What holds of a state and passes on by every step. -/
theorem StepRelation.preserves (p : σ → Prop) : StepRelation fun s t => p s → p t :=
  ⟨fun _ h => h, fun h k hs => k (h hs)⟩

/-- Every successful run leads to a state that is related to the one it began in. -/
def Keeps (r : σ → σ → Prop) (action : EStateM ε σ α) : Prop :=
  ∀ ⦃s a t⦄, action s = .ok a t → r s t

namespace Keeps

variable {r : σ → σ → Prop}

/-- What does not change the state keeps every relation between states. -/
theorem of_state_eq (hr : StepRelation r) {action : EStateM ε σ α}
    (h : ∀ {s a t}, action s = .ok a t → t = s) : Keeps r action := by
  intro s a t hrun
  rw [h hrun]
  exact hr.refl s

theorem pure (hr : StepRelation r) (a : α) : Keeps r (pure a : EStateM ε σ α) :=
  of_state_eq hr fun h => (pure_ok.mp h).2.symm

theorem throw (cause : ε) : Keeps r (throw cause : EStateM ε σ α) :=
  fun _ _ _ h => (throw_ok.mp h).elim

theorem get (hr : StepRelation r) : Keeps r (get : EStateM ε σ σ) :=
  of_state_eq hr fun h => (get_ok.mp h).2

theorem liftResult (hr : StepRelation r) {wrap : δ → ε} {x : Except δ α} :
    Keeps r (liftResult wrap x : EStateM ε σ α) :=
  of_state_eq hr fun h => (liftResult_ok.mp h).2.symm

/-- A sequence keeps what its parts keep, as the relation holds across two steps. -/
theorem bind (hr : StepRelation r) {x : EStateM ε σ α} {f : α → EStateM ε σ β}
    (hx : Keeps r x) (hf : ∀ a, Keeps r (f a)) : Keeps r (x >>= f) := by
  intro s b t h
  obtain ⟨a, u, hxs, hfa⟩ := bind_ok.mp h
  exact hr.trans (hx hxs) (hf a hfa)

/-- To forget what an action returns changes nothing about the states. -/
theorem discard {x : EStateM ε σ α} (hx : Keeps r x) : Keeps r (discard x) := by
  intro s b t h
  obtain ⟨a, hxs⟩ := discard_ok.mp h
  exact hx hxs

/-- A loop keeps what each of its rounds keeps. The induction is on the list, one round for each
element. -/
theorem forM (hr : StepRelation r) {f : α → EStateM ε σ PUnit} {xs : List α}
    (hf : ∀ x ∈ xs, Keeps r (f x)) : Keeps r (xs.forM f) := by
  induction xs with
  | nil => exact of_state_eq hr fun h => forM_nil_ok.mp h
  | cons x xs ih =>
    intro s u t h
    obtain ⟨m, hx, hxs⟩ := forM_cons_ok.mp h
    exact hr.trans (hf x (List.mem_cons_self ..) hx)
      (ih (fun y hy => hf y (List.mem_cons_of_mem _ hy)) hxs)

/-- A loop that carries a value keeps what its rounds keep for every value that it may carry. -/
theorem foldlM (hr : StepRelation r) {f : β → α → EStateM ε σ β} {xs : List α}
    (hf : ∀ b, ∀ x ∈ xs, Keeps r (f b x)) : ∀ b, Keeps r (xs.foldlM f b) := by
  induction xs with
  | nil => exact fun b => of_state_eq hr fun h => (foldlM_nil_ok.mp h).2.symm
  | cons x xs ih =>
    intro b s c t h
    obtain ⟨b', m, hx, hxs⟩ := foldlM_cons_ok.mp h
    exact hr.trans (hf b x (List.mem_cons_self ..) hx)
      (ih (fun b y hy => hf b y (List.mem_cons_of_mem _ hy)) b' hxs)

/-- A loop that collects results keeps what each of its rounds keeps. -/
theorem mapM (hr : StepRelation r) {f : α → EStateM ε σ β} {xs : List α}
    (hf : ∀ x ∈ xs, Keeps r (f x)) : Keeps r (xs.mapM f) := by
  induction xs with
  | nil => exact of_state_eq hr fun h => (mapM_nil_ok.mp h).2.symm
  | cons x xs ih =>
    intro s bs t h
    obtain ⟨b, m, bs', hx, hxs, -⟩ := mapM_cons_ok.mp h
    exact hr.trans (hf x (List.mem_cons_self ..) hx)
      (ih (fun y hy => hf y (List.mem_cons_of_mem _ hy)) hxs)

end Keeps

/-- Every run, refused or not, ends in a state that is related to the one it began in. -/
def Leaves (r : σ → σ → Prop) (action : EStateM ε σ α) : Prop :=
  ∀ s, r s (outcome action s)

theorem outcome_ok {action : EStateM ε σ α} {s t : σ} {a : α} (h : action s = .ok a t) :
    outcome action s = t := by
  unfold outcome
  rw [h]

theorem outcome_error {action : EStateM ε σ α} {s t : σ} {cause : ε} (h : action s = .error cause t) :
    outcome action s = t := by
  unfold outcome
  rw [h]

/-- After a step that is known, a run ends where the rest of it does. -/
theorem outcome_bind_ok {x : EStateM ε σ α} {f : α → EStateM ε σ β} {s t : σ} {a : α} (h : x s = .ok a t) :
    outcome (x >>= f) s = outcome (f a) t := by
  unfold outcome
  rw [bind_run h]

/-- The state in which a run ends does not depend on whether its result is wanted. -/
theorem outcome_discard {x : EStateM ε σ α} {s : σ} : outcome (discard x) s = outcome x s := by
  show outcome (EStateM.map (Function.const α PUnit.unit) x) s = _
  unfold outcome EStateM.map
  cases x s <;> rfl

namespace Leaves

variable {r : σ → σ → Prop}

/-- What is left by every run is kept by those that succeed. -/
theorem keeps {action : EStateM ε σ α} (h : Leaves r action) : Keeps r action := by
  intro s a t hrun
  rw [← outcome_ok hrun]
  exact h s

theorem pure (hr : StepRelation r) (a : α) : Leaves r (pure a : EStateM ε σ α) := fun s => hr.refl s

theorem throw (hr : StepRelation r) (cause : ε) : Leaves r (throw cause : EStateM ε σ α) :=
  fun s => hr.refl s

theorem get (hr : StepRelation r) : Leaves r (get : EStateM ε σ σ) := fun s => hr.refl s

theorem modify {f : σ → σ} (h : ∀ s, r s (f s)) : Leaves r (modify f : EStateM ε σ PUnit) := h

/-- A sequence leaves what its parts leave: where the first part is refused, the sequence ends there. -/
theorem bind (hr : StepRelation r) {x : EStateM ε σ α} {f : α → EStateM ε σ β} (hx : Leaves r x)
    (hf : ∀ a, Leaves r (f a)) : Leaves r (x >>= f) := by
  intro s
  have hs := hx s
  cases hrun : x s with
  | ok a t =>
    rw [outcome_ok hrun] at hs
    rw [outcome_bind_ok hrun]
    exact hr.trans hs (hf a t)
  | error cause t =>
    rw [outcome_error hrun] at hs
    rw [outcome_error (bind_error hrun)]
    exact hs

/-- A choice leaves what its branches leave. -/
theorem ite {c : Prop} [Decidable c] {x y : EStateM ε σ α} (hx : Leaves r x) (hy : Leaves r y) :
    Leaves r (if c then x else y) := by
  split
  next => exact hx
  next => exact hy

/-- To forget what an action returns changes nothing about how it leaves the state. -/
theorem discard {x : EStateM ε σ α} (hx : Leaves r x) : Leaves r (discard x) := by
  intro s
  rw [outcome_discard]
  exact hx s

/-- A loop leaves what its rounds leave, also where it is refused between two of them. -/
theorem forM (hr : StepRelation r) {f : α → EStateM ε σ PUnit} {xs : List α}
    (hf : ∀ x ∈ xs, Leaves r (f x)) : Leaves r (xs.forM f) := by
  induction xs with
  | nil => exact pure hr _
  | cons x xs ih =>
    exact bind hr (hf x (List.mem_cons_self ..)) fun _ =>
      ih fun y hy => hf y (List.mem_cons_of_mem _ hy)

/-- A loop that collects results leaves what its rounds leave. -/
theorem mapM (hr : StepRelation r) {f : α → EStateM ε σ β} {xs : List α}
    (hf : ∀ x ∈ xs, Leaves r (f x)) : Leaves r (xs.mapM f) := by
  induction xs with
  | nil => exact pure hr _
  | cons x xs ih =>
    rw [List.mapM_cons]
    refine bind hr (hf x (List.mem_cons_self ..)) fun _ => ?_
    exact bind hr (ih fun y hy => hf y (List.mem_cons_of_mem _ hy)) fun _ => pure hr _

/-- A loop that carries a value leaves what its rounds leave for every value that it may carry. -/
theorem foldlM (hr : StepRelation r) {f : β → α → EStateM ε σ β} {xs : List α}
    (hf : ∀ b, ∀ x ∈ xs, Leaves r (f b x)) : ∀ b, Leaves r (xs.foldlM f b) := by
  induction xs with
  | nil => exact fun b => pure hr b
  | cons x xs ih =>
    intro b
    rw [List.foldlM_cons]
    exact bind hr (hf b x (List.mem_cons_self ..)) fun b' =>
      ih (fun b y hy => hf b y (List.mem_cons_of_mem _ hy)) b'

/-- A result that is taken in leaves the state as it is, be it one or a refusal. -/
theorem liftResult (hr : StepRelation r) {wrap : δ → ε} (x : Except δ α) :
    Leaves r (liftResult wrap x : EStateM ε σ α) := by
  cases x with
  | ok a => exact pure hr a
  | error cause => exact throw hr (wrap cause)

/-- An action on a part leaves what putting back its outcome leaves. -/
theorem focus {part : σ → τ} {put : σ → τ → σ} {wrap : ε → δ} {action : EStateM ε τ α}
    (h : ∀ s, r s (put s (outcome action (part s)))) : Leaves r (focus part put wrap action) := by
  intro s
  have hs := h s
  have he : outcome (Splice.focus part put wrap action) s = put s (outcome action (part s)) := by
    unfold outcome Splice.focus
    cases action (part s) <;> rfl
  rw [he]
  exact hs

end Leaves

/-- What holds where a step ends, refused or not, and is kept by the rest of the run holds at the end. -/
theorem outcome_bind_of {p : σ → Prop} {x : EStateM ε σ α} {f : α → EStateM ε σ β} {s : σ}
    (hx : p (outcome x s)) (hf : ∀ a t, p t → p (outcome (f a) t)) : p (outcome (x >>= f) s) := by
  cases hrun : x s with
  | ok a t =>
    rw [outcome_ok hrun] at hx
    rw [outcome_bind_ok hrun]
    exact hf a t hx
  | error cause t =>
    rw [outcome_error hrun] at hx
    rw [outcome_error (bind_error hrun)]
    exact hx

/-- A step that changes nothing may be left out, if the rest of the run ends well whatever it found. -/
theorem outcome_bind_of_same {p : σ → Prop} {x : EStateM ε σ α} {f : α → EStateM ε σ β} {s : σ}
    (hx : outcome x s = s) (hs : p s) (hf : ∀ a, p (outcome (f a) s)) : p (outcome (x >>= f) s) := by
  cases hrun : x s with
  | ok a t =>
    rw [outcome_ok hrun] at hx
    rw [outcome_bind_ok hrun, hx]
    exact hf a
  | error cause t =>
    rw [outcome_error hrun] at hx
    rw [outcome_error (bind_error hrun), hx]
    exact hs

/-! ## What a run ends in -/

/-- The run from `s` ends as `post` says. Only where `refusable` holds it may be refused instead. -/
def Yields (refusable : Prop) (action : EStateM ε σ α) (s : σ) (post : α → σ → Prop) : Prop :=
  match action s with
  | .ok a t => post a t
  | .error _ _ => refusable

namespace Yields

variable {refusable : Prop} {s t : σ}

/-- A run that succeeds yields what holds of its result. -/
theorem of_ok {action : EStateM ε σ α} {a : α} {post : α → σ → Prop} (h : action s = .ok a t)
    (hpost : post a t) : Yields refusable action s post := by
  unfold Yields
  rw [h]
  exact hpost

/-- A run that is refused yields anything, where it may be refused. -/
theorem of_error {action : EStateM ε σ α} {cause : ε} {post : α → σ → Prop}
    (h : action s = .error cause t) (hrefusable : refusable) : Yields refusable action s post := by
  unfold Yields
  rw [h]
  exact hrefusable

/-- What a successful run ended in. -/
theorem ok {action : EStateM ε σ α} {a : α} {post : α → σ → Prop} (h : Yields refusable action s post)
    (hrun : action s = .ok a t) : post a t := by
  unfold Yields at h
  rw [hrun] at h
  exact h

/-- A run that was refused was one that may be. -/
theorem refused {action : EStateM ε σ α} {cause : ε} {post : α → σ → Prop}
    (h : Yields refusable action s post) (hrun : action s = .error cause t) : refusable := by
  unfold Yields at h
  rw [hrun] at h
  exact h

/-- A run that may not be refused succeeds, and its result is as said. -/
theorem succeeds {action : EStateM ε σ α} {post : α → σ → Prop} (h : Yields False action s post) :
    ∃ a t, action s = .ok a t ∧ post a t := by
  cases hrun : action s with
  | ok a t => exact ⟨a, t, rfl, h.ok hrun⟩
  | error cause t => exact (h.refused hrun).elim

/-- What a run yields may be weakened. -/
theorem imp {action : EStateM ε σ α} {post post' : α → σ → Prop} (h : Yields refusable action s post)
    (himp : ∀ a t, post a t → post' a t) : Yields refusable action s post' := by
  cases hrun : action s with
  | ok a t => exact of_ok hrun (himp a t (h.ok hrun))
  | error cause t => exact of_error hrun (h.refused hrun)

/-- A sequence yields what its second part yields of what the first part yields. No branch for a refusal
is left open: it is the same permission in both parts. -/
theorem bind {x : EStateM ε σ α} {f : α → EStateM ε σ β} {post : β → σ → Prop}
    (h : Yields refusable x s fun a t => Yields refusable (f a) t post) :
    Yields refusable (x >>= f) s post := by
  cases hrun : x s with
  | ok a t =>
    have hrest := h.ok hrun
    unfold Yields
    rw [bind_run hrun]
    exact hrest
  | error cause t => exact of_error (bind_error hrun) (h.refused hrun)

/-- To forget what an action returns leaves what it yields about the state. -/
theorem discard {x : EStateM ε σ α} {post : PUnit → σ → Prop}
    (h : Yields refusable x s fun _ t => post ⟨⟩ t) : Yields refusable (discard x) s post := by
  cases hrun : x s with
  | ok a t => exact of_ok (discard_ok.mpr ⟨a, hrun⟩) (h.ok hrun)
  | error cause t => exact of_error (discard_error hrun) (h.refused hrun)

/-- A loop ends in what holds of all of the list, if each round adds its element to that of which it
holds. -/
theorem forM {f : α → EStateM ε σ PUnit} {xs : List α} {p : List α → σ → Prop} (h : p [] s)
    (hstep : ∀ done x rest s, xs = done ++ x :: rest → p done s →
      Yields refusable (f x) s fun _ t => p (done ++ [x]) t) :
    Yields refusable (xs.forM f) s fun _ t => p xs t := by
  have hloop : ∀ rest done s, xs = done ++ rest → p done s →
      Yields refusable (rest.forM f) s fun _ t => p xs t := by
    intro rest
    induction rest with
    | nil =>
      intro done s hxs hdone
      rw [List.append_nil] at hxs
      exact of_ok rfl (hxs ▸ hdone)
    | cons x rest ih =>
      intro done s hxs hdone
      refine bind ((hstep done x rest s hxs hdone).imp fun _ t ht => ?_)
      exact ih (done ++ [x]) t (by simp [hxs]) ht
  exact hloop xs [] s rfl h

end Yields

/-! ## Results without a state -/

/-- A sequence of results is one exactly if both of its parts are. -/
theorem bind_eq_ok {x : Except ε α} {f : α → Except ε β} {b : β} :
    (x >>= f) = .ok b ↔ ∃ a, x = .ok a ∧ f a = .ok b := by
  cases x with
  | ok a =>
    show f a = _ ↔ _
    simp
  | error cause =>
    show Except.error cause = _ ↔ _
    simp

theorem pure_eq_ok {a b : α} : (pure a : Except ε α) = .ok b ↔ a = b := by
  show Except.ok a = _ ↔ _
  simp

theorem isOk_iff {x : Except ε Unit} : x.isOk = true ↔ x = .ok () := by
  cases x <;> simp [Except.isOk, Except.toBool]

/-- To wrap the causes of refusal does not change what succeeds. -/
theorem mapError_eq_ok {f : ε → δ} {x : Except ε α} {a : α} :
    x.mapError f = .ok a ↔ x = .ok a := by
  cases x with
  | error e =>
    show Except.error (f e) = Except.ok a ↔ _
    simp
  | ok b =>
    show Except.ok b = Except.ok a ↔ _
    simp

/-- A loop over results succeeds exactly if each of its rounds does, since none of them depends on the
others. -/
theorem forM_eq_ok {f : α → Except ε Unit} {xs : List α} {u : Unit} :
    xs.forM f = .ok u ↔ ∀ x ∈ xs, f x = .ok () := by
  induction xs with
  | nil =>
    show (pure () : Except ε Unit) = _ ↔ _
    simp [pure_eq_ok]
  | cons x xs ih =>
    show (f x >>= fun _ => xs.forM f) = _ ↔ _
    rw [bind_eq_ok, List.forall_mem_cons, ← ih]
    constructor
    · rintro ⟨a, hx, hxs⟩
      exact ⟨hx, hxs⟩
    · rintro ⟨hx, hxs⟩
      exact ⟨_, hx, hxs⟩

/-- Results are collected exactly if each is one, in the order of the list. -/
theorem mapM_eq_ok {f : α → Except ε β} : ∀ {xs : List α} {bs : List β},
    xs.mapM f = .ok bs ↔ xs.map f = bs.map .ok
  | [], bs => by
    rw [List.mapM_nil, pure_eq_ok]
    cases bs <;> simp
  | x :: xs, bs => by
    rw [List.mapM_cons, bind_eq_ok]
    constructor
    · rintro ⟨b, hb, h⟩
      obtain ⟨bs', hbs, h⟩ := bind_eq_ok.mp h
      rw [pure_eq_ok] at h
      subst h
      rw [List.map_cons, List.map_cons, hb, mapM_eq_ok.mp hbs]
    · intro h
      cases bs with
      | nil => simp at h
      | cons b bs =>
        rw [List.map_cons, List.map_cons, List.cons.injEq] at h
        exact ⟨b, h.1, bind_eq_ok.mpr ⟨bs, mapM_eq_ok.mpr h.2, rfl⟩⟩

/-- Where only `g x` can come of `f x`, the results are those of `g`. -/
theorem mapM_eq_ok_map {f : α → Except ε β} {g : α → β} (hg : ∀ x b, f x = .ok b → b = g x)
    {xs : List α} {bs : List β} :
    xs.mapM f = .ok bs ↔ (∀ x ∈ xs, f x = .ok (g x)) ∧ bs = xs.map g := by
  induction xs generalizing bs with
  | nil =>
    rw [List.mapM_nil, pure_eq_ok]
    simp [eq_comm]
  | cons x xs ih =>
    simp only [List.mapM_cons, bind_eq_ok, pure_eq_ok, ih, List.forall_mem_cons, List.map_cons]
    constructor
    · intro h
      obtain ⟨b, hb, rest, ⟨hrest, rfl⟩, rfl⟩ := h
      obtain rfl := hg x b hb
      exact ⟨⟨hb, hrest⟩, rfl⟩
    · intro h
      obtain ⟨⟨hb, hrest⟩, rfl⟩ := h
      exact ⟨g x, hb, _, ⟨hrest, rfl⟩, rfl⟩

/-- Each element of the list has its result among the results. -/
theorem exists_of_mapM_eq_ok {f : α → Except ε β} {xs : List α} {bs : List β}
    (h : xs.mapM f = .ok bs) {x : α} (hx : x ∈ xs) : ∃ b ∈ bs, f x = .ok b := by
  have hin : f x ∈ xs.map f := List.mem_map_of_mem hx
  rw [mapM_eq_ok.mp h, List.mem_map] at hin
  obtain ⟨b, hb, hrun⟩ := hin
  exact ⟨b, hb, hrun.symm⟩

/-- Each result is that of an element of the list. -/
theorem exists_of_mem_mapM {f : α → Except ε β} {xs : List α} {bs : List β}
    (h : xs.mapM f = .ok bs) {b : β} (hb : b ∈ bs) : ∃ x ∈ xs, f x = .ok b := by
  have hin : (.ok b : Except ε β) ∈ bs.map .ok := List.mem_map_of_mem hb
  rw [← mapM_eq_ok.mp h, List.mem_map] at hin
  exact hin

/-- If each element of the list has a result, so has the list. -/
theorem mapM_succeeds {f : α → Except ε β} {xs : List α} (h : ∀ x ∈ xs, ∃ b, f x = .ok b) :
    ∃ bs, xs.mapM f = .ok bs ∧ ∀ b, b ∈ bs ↔ ∃ x ∈ xs, f x = .ok b := by
  have hruns : ∃ bs, xs.mapM f = .ok bs := by
    induction xs with
    | nil => exact ⟨[], List.mapM_nil⟩
    | cons x xs ih =>
      obtain ⟨b, hb⟩ := h x (List.mem_cons_self ..)
      obtain ⟨bs, hbs⟩ := ih fun x hx => h x (List.mem_cons_of_mem _ hx)
      exact ⟨b :: bs, by rw [List.mapM_cons, hb, hbs]; rfl⟩
  obtain ⟨bs, hbs⟩ := hruns
  refine ⟨bs, hbs, fun b => ⟨exists_of_mem_mapM hbs, fun ⟨x, hx, hb⟩ => ?_⟩⟩
  obtain ⟨c, hc, hrun⟩ := exists_of_mapM_eq_ok hbs hx
  rw [hb, Except.ok.injEq] at hrun
  exact hrun ▸ hc

end Splice
