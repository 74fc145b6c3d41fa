import Splice.Proofs.Redirects.Calls
import Splice.Proofs.Redirects.Replacement

/-!
# What the log of the redirects tells

An entry of the log says what it set, to what, and what that was set to before. To follow it is to
check the one and to do the other (`Bindings.follow`). What is made of redirects is `Logged` if
following the new entries, one after the other, makes the same of the maps.

Every call is logged (`logged_call`). `replace` writes nothing, and so nothing is missing
afterwards exactly if it changes nothing: no redirect or override names the instruction that is
replaced, and nothing is redirected to itself, for such a redirect is dropped on the way
(`logged_replace_iff`). With what was replaced put in between the entries, the log accounts for
all there is (`Accounted`).

Replaying takes an entry only if the value that it says it replaced is the one that is there, so
a log with an entry missing does not replay to the end in general, and `Accounted` says where
something has to be put in between. `Ignores` is what makes a replacement change nothing.
-/

namespace Splice

/-- The redirects and the overrides, as they are read. -/
@[ext]
structure Bindings where
  target : InstrId → Option InstrId
  override : InstrId → Option InstrId

namespace Bindings

variable {bindings mid after : Bindings} {entries rest : List RedirectRecord}

def setTarget (bindings : Bindings) (logical : InstrId) (physical : Option InstrId) : Bindings :=
  { bindings with target := fun id => if id = logical then physical else bindings.target id }

def setOverride (bindings : Bindings) (jumper : InstrId) (physical : Option InstrId) : Bindings :=
  { bindings with override := fun id => if id = jumper then physical else bindings.override id }

/-- What an entry of the log makes of the maps, if what it says was there is there. -/
def follow (bindings : Bindings) (record : RedirectRecord) : Option Bindings :=
  match record.kind with
  | .target =>
    if bindings.target record.source = record.old then
      some (bindings.setTarget record.source record.new)
    else none
  | .jumper =>
    if bindings.override record.source = record.old then
      some (bindings.setOverride record.source record.new)
    else none
  | .restore =>
    if bindings.target record.source = record.old ∧ record.old ≠ none ∧ record.new = none then
      some (bindings.setTarget record.source none)
    else none

/-- What the entries make of the maps, one after the other. -/
def replay (bindings : Bindings) (entries : List RedirectRecord) : Option Bindings :=
  entries.foldlM follow bindings

theorem replay_append (h : bindings.replay entries = some mid) :
    bindings.replay (entries ++ rest) = mid.replay rest := by
  rw [replay, List.foldlM_append]
  exact congrArg (· >>= fun maps => rest.foldlM follow maps) h

theorem replay_singleton (record : RedirectRecord) : bindings.replay [record] = bindings.follow record := by
  rw [replay, List.foldlM_cons]
  exact bind_pure (bindings.follow record)

end Bindings

namespace Redirects

variable {start r mid after : Redirects} {old new : InstrId}

def bindings (r : Redirects) : Bindings := ⟨r.targetOf?, r.overrideOf?⟩

/-- What was made of the redirects since `start` is what the entries say that the log gained since. -/
def Logged (start r : Redirects) : Prop :=
  ∃ entries, r.log = start.log ++ entries ∧ start.bindings.replay entries = some r.bindings

theorem Logged.refl (r : Redirects) : r.Logged r := ⟨[], (List.append_nil _).symm, rfl⟩

/-- What is logged over two stretches is logged over both. -/
theorem Logged.trans (h : start.Logged mid) (k : mid.Logged after) : start.Logged after := by
  obtain ⟨entries, hlog, hreplay⟩ := h
  obtain ⟨rest, hlog', hreplay'⟩ := k
  refine ⟨entries ++ rest, ?_, ?_⟩
  · rw [hlog', hlog, List.append_assoc]
  · rw [Bindings.replay_append hreplay, hreplay']

theorem Logged.of_entry (record : RedirectRecord) (hlog : after.log = r.log ++ [record])
    (hfollow : r.bindings.follow record = some after.bindings) : r.Logged after :=
  ⟨[record], hlog, (Bindings.replay_singleton record).trans hfollow⟩

/-! ## Calls -/

/-- A redirect logs what it changes. -/
theorem logged_redirect {logical physical : InstrId} (h : r.redirect logical physical = .ok after) :
    r.Logged after := by
  have hbindings : after.bindings = r.bindings.setTarget logical (some physical) :=
    Bindings.ext (funext (targetOf?_redirect_eq h)) (funext (overrideOf?_redirect h))
  unfold redirect at h
  split at h
  · cases h
  · obtain rfl := Except.ok.inj h
    refine .of_entry _ rfl ?_
    rw [hbindings]
    exact if_pos rfl

/-- An override logs what it changes. -/
theorem logged_redirectJumper (jumper physical : InstrId) : r.Logged (r.redirectJumper jumper physical) := by
  have hbindings : (r.redirectJumper jumper physical).bindings = r.bindings.setOverride jumper (some physical) := by
    refine Bindings.ext rfl (funext fun id => ?_)
    show (Assoc.put r.jumpers jumper physical).lookup id = if id = jumper then _ else _
    by_cases hid : id = jumper
    · rw [if_pos hid, hid, Assoc.lookup_put_self]
    · rw [if_neg hid, Assoc.lookup_put_of_ne _ _ hid]
      rfl
  refine .of_entry _ rfl ?_
  rw [hbindings]
  exact if_pos rfl

/-- The end of a redirect logs what it changes, and logs nothing where there was none. -/
theorem logged_restore (logical : InstrId) : r.Logged (r.restore logical).2 := by
  cases htarget : r.targetOf? logical with
  | none =>
    rw [restore, htarget]
    exact .refl r
  | some physical =>
    have hbindings : (r.restore logical).2.bindings = r.bindings.setTarget logical none := by
      rw [restore, htarget]
      refine Bindings.ext (funext fun id => ?_) rfl
      show (Assoc.erase r.targets logical).lookup id = if id = logical then _ else _
      by_cases hid : id = logical
      · rw [if_pos hid, hid, Assoc.lookup_erase_self]
      · rw [if_neg hid, Assoc.lookup_erase_of_ne _ hid]
        rfl
    refine .of_entry ⟨.restore, logical, some physical, none⟩ ?_ ?_
    · rw [restore, htarget]
    · rw [hbindings]
      exact if_pos ⟨htarget, nofun, rfl⟩

/-- Every call logs what it changes. -/
theorem logged_call (made : RedirectCall) : r.Logged (r.call made) := by
  cases made with
  | redirect logical physical =>
    cases hredirect : r.redirect logical physical with
    | ok after =>
      rw [call_redirect_of_ok hredirect]
      exact logged_redirect hredirect
    | error cause =>
      rw [call, hredirect]
      exact .refl r
  | redirectJumper jumper physical => exact logged_redirectJumper jumper physical
  | restore logical => exact logged_restore logical

/-- Every call keeps the keys different. -/
theorem Keyed.call (h : r.Keyed) (made : RedirectCall) : (r.call made).Keyed := by
  cases made with
  | redirect logical physical =>
    cases hredirect : r.redirect logical physical with
    | ok after =>
      rw [call_redirect_of_ok hredirect]
      exact h.redirect hredirect
    | error cause =>
      rw [Redirects.call, hredirect]
      exact h
  | redirectJumper jumper physical => exact ⟨h.targets, Assoc.nodup_keys_put h.jumpers jumper physical⟩
  | restore logical =>
    show (r.restore logical).2.Keyed
    unfold restore
    split
    · exact h
    · exact ⟨h.targets.sublist (List.Sublist.map _ List.filter_sublist), h.jumpers⟩

/-! ## Replacing -/

/-- The redirects take no notice of what becomes of `old`: none names it, and none is of the kind that
replacing drops. -/
def Ignores (r : Redirects) (old : InstrId) : Prop :=
  r.Within (· ≠ old) ∧ ∀ x, r.targetOf? x ≠ some x

/-- A redirect or an override that is still there names another instruction than the one that was
replaced. -/
theorem ne_of_mem_swapBoth {entries : List (InstrId × InstrId)} {entry : InstrId × InstrId} (hne : old ≠ new)
    (h : entry ∈ entries.map (swapBoth old new)) : entry.1 ≠ old ∧ entry.2 ≠ old := by
  obtain ⟨pair, -, rfl⟩ := List.mem_map.mp h
  exact ⟨swap_ne hne _, swap_ne hne _⟩

/-- Replacing an instruction changes nothing exactly if the redirects take no notice of it. -/
theorem bindings_replace_iff (hkeys : r.Keyed) (hne : old ≠ new) :
    (r.replace old new).bindings = r.bindings ↔ r.Ignores old := by
  constructor
  · intro hsame
    have hstays : ∀ {x y}, r.targetOf? x = some y →
        (x, y) ∈ (r.targets.map (swapBoth old new)).filter fun entry => entry.1 != entry.2 := by
      intro x y hxy
      rw [← show (r.replace old new).targetOf? x = r.targetOf? x from
        congrFun (congrArg Bindings.target hsame) x] at hxy
      exact Assoc.mem_of_mem_ofPairs (Assoc.mem_of_lookup hxy)
    have hlands : ∀ {x y}, r.overrideOf? x = some y → (x, y) ∈ r.jumpers.map (swapBoth old new) := by
      intro x y hxy
      rw [← show (r.replace old new).overrideOf? x = r.overrideOf? x from
        congrFun (congrArg Bindings.override hsame) x] at hxy
      exact Assoc.mem_of_mem_ofPairs (Assoc.mem_of_lookup hxy)
    refine ⟨fun entry hentry => ?_, fun x hx => ?_⟩
    · rcases List.mem_append.mp hentry with htarget | hjumper
      · have hmem := hstays (Assoc.lookup_of_mem hkeys.targets htarget)
        exact ne_of_mem_swapBoth hne (List.mem_filter.mp hmem).1
      · exact ne_of_mem_swapBoth hne (hlands (Assoc.lookup_of_mem hkeys.jumpers hjumper))
    · exact bne_iff_ne.mp (List.mem_filter.mp (hstays hx)).2 rfl
  · rintro ⟨hwithin, hself⟩
    obtain ⟨htargets, hjumpers⟩ := replace_same hkeys hwithin (fun entry hentry he =>
      hself entry.1 ((Assoc.lookup_of_mem hkeys.targets hentry).trans (congrArg some he.symm))) new
    refine Bindings.ext (funext fun x => ?_) (funext fun x => ?_)
    · exact congrArg (List.lookup x) htargets
    · exact congrArg (List.lookup x) hjumpers

/-- Where everything was logged, it still is after a replacement exactly if that changed nothing. -/
theorem logged_replace_iff (hkeys : r.Keyed) (hne : old ≠ new) (h : start.Logged r) :
    start.Logged (r.replace old new) ↔ r.Ignores old := by
  rw [← bindings_replace_iff hkeys hne]
  obtain ⟨entries, hlog, hreplay⟩ := h
  constructor
  · rintro ⟨entries', hlog', hreplay'⟩
    -- no entry was written, so these are the entries that led to `r`
    obtain rfl : entries = entries' := List.append_cancel_left (hlog.symm.trans hlog')
    exact Option.some.inj (hreplay'.symm.trans hreplay)
  · intro hsame
    exact ⟨entries, hlog, hsame ▸ hreplay⟩

/-- Between the instructions that were replaced, each with the one that took its place, everything is
logged. -/
inductive Accounted : Redirects → List (InstrId × InstrId) → Redirects → Prop where
  | logged {r after : Redirects} (h : r.Logged after) : Accounted r [] after
  | replaced {r mid after : Redirects} {old new : InstrId} {rest : List (InstrId × InstrId)} (h : r.Logged mid)
      (hrest : Accounted (mid.replace old new) rest after) : Accounted r ((old, new) :: rest) after

/-- What is logged up to a point is accounted for if the rest is. -/
theorem Logged.accounted {replaced : List (InstrId × InstrId)} (h : r.Logged mid)
    (hrest : mid.Accounted replaced after) : r.Accounted replaced after := by
  cases hrest with
  | logged h' => exact .logged (h.trans h')
  | replaced h' hrest => exact .replaced (h.trans h') hrest

end Redirects

end Splice
