import Splice.Proofs.Redirects

/-!
# Redirects under any calls

Redirects are meant to stay acyclic, so that following them ends. A redirect is refused if
following the redirects from where it leads ends at its source. For a source that is not
redirected yet that is right: it is refused exactly if it would close a cycle. But no path
ends at a source that is redirected already, so a redirect that moves such a source is always
accepted, and it closes a cycle if one comes back to the source from its new place.

`call_acyclic_iff` says that this is the only way to a cycle, and `acyclic_along_calls` that
along any sequence of calls the redirects stay acyclic exactly as long as no call `Closes` a
cycle so. Whether they are acyclic is also what landings depend on: they are exactly if no
jumper without an override lands on a place that is redirected.

The condition `Closes` can be read off one call and the redirects it is made on: the source is
redirected already, and following redirects from the new place leads to the source. That the
check overlooks this is where the engine falls short of what is promised of it, and a sequence
of three calls gets there.
-/

namespace Splice

/-- A call that changes redirects. -/
inductive RedirectCall where
  /-- Make every jumper of `logical` land on `physical`. -/
  | redirect (logical physical : InstrId)
  /-- Make one jumper land on `physical`. -/
  | redirectJumper (jumper physical : InstrId)
  /-- End the redirect of `logical`. -/
  | restore (logical : InstrId)

namespace Redirects

variable {r after : Redirects} {x y logical physical jumper : InstrId} {made : RedirectCall}

/-- The redirects after a call; one that is refused leaves them as they are. -/
def call (r : Redirects) : RedirectCall → Redirects
  | .redirect logical physical =>
    match r.redirect logical physical with
    | .ok after => after
    | .error _ => r
  | .redirectJumper jumper physical => r.redirectJumper jumper physical
  | .restore logical => (r.restore logical).2

/-- What calls one after the other make of no redirects at all. -/
def reached (calls : List RedirectCall) : Redirects := calls.foldl call empty

theorem reached_concat (calls : List RedirectCall) (made : RedirectCall) :
    reached (calls ++ [made]) = (reached calls).call made := by
  rw [reached, List.foldl_append]
  rfl

/-- The call redirects what is redirected already to a place from which one comes back to it. -/
def Closes (r : Redirects) : RedirectCall → Prop
  | .redirect logical physical => r.targetOf? logical ≠ none ∧ r.Returns logical physical
  | .redirectJumper .. => False
  | .restore _ => False

/-! ## One call -/

theorem redirect_error_iff :
    r.redirect logical physical = .error (.cycle logical physical)
      ↔ r.landing physical = logical := by
  unfold redirect
  split <;> simp [*]

/-- A redirect to a place that does not land on the target is accepted. -/
theorem redirect_ok_of_ne (h : r.landing physical ≠ logical) :
    ∃ after, r.redirect logical physical = .ok after := by
  unfold redirect
  rw [if_neg h]
  exact ⟨_, rfl⟩

theorem call_redirect_of_ok (h : r.redirect logical physical = .ok after) :
    r.call (.redirect logical physical) = after := by
  rw [call, h]

theorem call_redirect_of_landing (h : r.landing physical = logical) :
    r.call (.redirect logical physical) = r := by
  rw [call, redirect_error_iff.mpr h]

/-- A redirect of what is not redirected yet is refused exactly if it would close a cycle. -/
theorem redirect_refused_iff (hlogical : r.targetOf? logical = none) :
    r.redirect logical physical = .error (.cycle logical physical)
      ↔ r.Returns logical physical :=
  redirect_error_iff.trans (landing_eq_iff hlogical)

/-- A redirect of what is redirected already is accepted. -/
theorem Acyclic.redirect_accepted (hr : r.Acyclic) (physical : InstrId)
    (hlogical : r.targetOf? logical ≠ none) :
    ∃ after, r.redirect logical physical = .ok after := by
  refine redirect_ok_of_ne fun hland => hlogical ?_
  rw [← hland]
  exact hr.landing_end physical

/-- Ending redirects closes no cycle. -/
theorem Acyclic.mono (hr : r.Acyclic)
    (h : ∀ x y, after.targetOf? x = some y → r.targetOf? x = some y) : after.Acyclic := by
  have hleads : ∀ x y, after.Leads x y → r.Leads x y := by
    intro x y hxy
    induction hxy with
    | single hxy => exact .single (h _ _ hxy)
    | tail _ hyz ih => exact .tail ih (h _ _ hyz)
  exact fun x hx => hr x (hleads x x hx)

/-- What is redirected after a redirect was ended was redirected before, to the same place. -/
theorem targetOf?_of_restore (h : (r.restore logical).2.targetOf? x = some y) :
    r.targetOf? x = some y := by
  by_cases hx : x = logical
  · rw [hx, targetOf?_restore] at h
    cases h
  · unfold restore at h
    split at h
    · exact h
    · rwa [targetOf?, Assoc.lookup_erase_of_ne _ hx] at h

/-- Redirects stay acyclic under a call exactly if it does not close a cycle. -/
theorem call_acyclic_iff (hr : r.Acyclic) : (r.call made).Acyclic ↔ ¬ r.Closes made := by
  cases made with
  | redirect logical physical =>
    by_cases hland : r.landing physical = logical
    · have hlogical : r.targetOf? logical = none := hland ▸ hr.landing_end physical
      rw [call_redirect_of_landing hland]
      exact iff_of_true hr fun hcloses => hcloses.1 hlogical
    · obtain ⟨after, hafter⟩ := redirect_ok_of_ne hland
      rw [call_redirect_of_ok hafter, hr.redirect_iff hafter, Closes]
      -- what is not redirected is not come back to, or the call would have been refused
      have hopen : r.Returns logical physical → r.targetOf? logical ≠ none :=
        fun hreturns hlogical => hland ((landing_eq_iff hlogical).mpr hreturns)
      exact not_congr ⟨fun hreturns => ⟨hopen hreturns, hreturns⟩, fun hcloses => hcloses.2⟩
  | redirectJumper jumper physical =>
    exact iff_of_true (hr.mono fun _ _ h => h) fun hcloses => hcloses
  | restore logical =>
    exact iff_of_true (hr.mono fun _ _ => targetOf?_of_restore) fun hcloses => hcloses

/-! ## Sequences of calls -/

/-- Redirects stay acyclic along a sequence of calls exactly if none of them closes a cycle. -/
theorem acyclic_along_iff (calls : List RedirectCall) :
    (∀ front, front <+: calls → (reached front).Acyclic)
      ↔ ∀ front made, front ++ [made] <+: calls → ¬ (reached front).Closes made := by
  constructor
  · intro hall front made hfront
    have hr := hall front ((List.prefix_append front [made]).trans hfront)
    have hnext := hall _ hfront
    rw [reached_concat] at hnext
    exact (call_acyclic_iff hr).mp hnext
  · intro hnone front hfront
    -- by the last call: what came in front of it is a shorter sequence of the same kind
    induction hlength : front.length generalizing front with
    | zero =>
      rw [List.length_eq_zero_iff.mp hlength]
      exact acyclic_empty
    | succ n ih =>
      rcases List.eq_nil_or_concat front with rfl | ⟨front, made, rfl⟩
      · cases hlength
      · rw [List.concat_eq_append] at hfront hlength ⊢
        have hr := ih front ((List.prefix_append front [made]).trans hfront) (by simpa using hlength)
        rw [reached_concat]
        exact (call_acyclic_iff hr).mpr (hnone front made hfront)

/-- Redirects are acyclic exactly if no jumper that follows them lands on a place that is redirected. -/
theorem acyclic_iff_resolve : r.Acyclic ↔ ∀ jumper logical, r.overrideOf? jumper = none →
    r.targetOf? (r.resolve jumper logical) = none := by
  rw [acyclic_iff]
  constructor
  · intro hland jumper logical hjumper
    rw [resolve_of_no_override hjumper]
    exact hland logical
  · intro hresolve x
    obtain ⟨jumper, hjumper, -⟩ := exists_unlisted r.jumpers []
    rw [← resolve_of_no_override hjumper]
    exact hresolve jumper x hjumper

/-- Whatever calls are made on no redirects, the map stays acyclic exactly as long as no call moves a
target that is redirected already to a place from which one comes back to it. A redirect of a
target that is not redirected is refused, and then changes nothing, exactly if one comes back to it; one
of a target that is redirected is accepted, and the map is acyclic afterwards exactly if one does not
come back. The map is acyclic exactly if no jumper without an override lands on a place that
is redirected. -/
theorem acyclic_along_calls (calls : List RedirectCall) :
    ((∀ front, front <+: calls → (reached front).Acyclic)
        ↔ ∀ front made, front ++ [made] <+: calls → ¬ (reached front).Closes made)
      ∧ (∀ logical physical, (reached calls).targetOf? logical = none →
        ((reached calls).redirect logical physical = .error (.cycle logical physical)
            ↔ (reached calls).Returns logical physical)
          ∧ ((reached calls).Returns logical physical →
            (reached calls).call (.redirect logical physical) = reached calls))
      ∧ ((reached calls).Acyclic → ∀ logical physical, (reached calls).targetOf? logical ≠ none →
        ∃ after, (reached calls).redirect logical physical = .ok after
          ∧ (after.Acyclic ↔ ¬ (reached calls).Returns logical physical))
      ∧ ((reached calls).Acyclic ↔ ∀ jumper logical, (reached calls).overrideOf? jumper = none →
        (reached calls).targetOf? ((reached calls).resolve jumper logical) = none) := by
  refine ⟨acyclic_along_iff calls, fun logical physical hlogical => ⟨redirect_refused_iff hlogical, ?_⟩,
    fun hr logical physical hlogical => ?_, acyclic_iff_resolve⟩
  · intro hreturns
    exact call_redirect_of_landing ((landing_eq_iff hlogical).mpr hreturns)
  · obtain ⟨after, hafter⟩ := hr.redirect_accepted physical hlogical
    exact ⟨after, hafter, hr.redirect_iff hafter⟩

/-- Once i1 is redirected to i2 and i3 to i1, one comes from i3 to i1; i1 is redirected to i3 all the
same, and its jumpers are left going round between the two. -/
theorem redirect_closes_cycle : ∃ after,
    (reached [.redirect ⟨1⟩ ⟨2⟩, .redirect ⟨3⟩ ⟨1⟩]).Acyclic
      ∧ (reached [.redirect ⟨1⟩ ⟨2⟩, .redirect ⟨3⟩ ⟨1⟩]).Returns ⟨1⟩ ⟨3⟩
      ∧ (reached [.redirect ⟨1⟩ ⟨2⟩, .redirect ⟨3⟩ ⟨1⟩]).redirect ⟨1⟩ ⟨3⟩ = .ok after
      ∧ ¬ after.Acyclic ∧ after.targetOf? (after.resolve ⟨9⟩ ⟨1⟩) ≠ none := by
  have hcalls : (reached [.redirect ⟨1⟩ ⟨2⟩, .redirect ⟨3⟩ ⟨1⟩]).Acyclic := by
    show ((empty.call (.redirect ⟨1⟩ ⟨2⟩)).call (.redirect ⟨3⟩ ⟨1⟩)).Acyclic
    refine (call_acyclic_iff ((call_acyclic_iff acyclic_empty).mpr ?_)).mpr ?_
    · exact fun hcloses => hcloses.1 (by decide)
    · exact fun hcloses => hcloses.1 (by decide)
  have hreturns : (reached [.redirect ⟨1⟩ ⟨2⟩, .redirect ⟨3⟩ ⟨1⟩]).Returns ⟨1⟩ ⟨3⟩ :=
    .inr (.single (by decide))
  refine ⟨_, hcalls, hreturns, rfl, fun hacyclic => ?_, by decide⟩
  exact (hcalls.redirect_iff rfl).mp hacyclic hreturns

end Redirects

end Splice
