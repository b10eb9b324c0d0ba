import Mathlib.Data.List.Forall2
import Mathlib.Data.List.Induction
import Conform.OrderedMap

/-!
# Entries side by side, and entries collected

Objects are made by collecting pairs: a name that is given again keeps its place and takes
the later value.  Entries of two objects are side by side when they have the same keys in
the same order and related values, and collecting keeps them so.

## Main definitions

* `Entries.Alongside`: the same keys with related values.

## Main results

* `Entries.get?_collect_iff`: what is collected under a name is the last that was given.
* `Entries.Alongside.collect`: what is side by side is so after collecting.
-/

namespace Conform

/-- A list that goes on by one is split at its new end, or where it was split before. -/
theorem exists_split_concat_iff {ι : Type} {xs : List ι} {x y : ι} {P : List ι → Prop} :
    (∃ before after, xs ++ [y] = before ++ x :: after ∧ P after) ↔
      y = x ∧ P [] ∨ ∃ before after, xs = before ++ x :: after ∧ P (after ++ [y]) := by
  constructor
  · rintro ⟨before, after, heq, hafter⟩
    rcases List.eq_nil_or_concat after with rfl | ⟨after, last, rfl⟩
    · obtain ⟨-, hlast⟩ := List.append_inj' heq rfl
      exact .inl ⟨List.singleton_inj.1 hlast, hafter⟩
    · rw [List.concat_eq_append, ← List.cons_append, ← List.append_assoc] at heq
      obtain ⟨rfl, hlast⟩ := List.append_inj' heq rfl
      obtain rfl := List.singleton_inj.1 hlast
      rw [List.concat_eq_append] at hafter
      exact .inr ⟨before, after, rfl, hafter⟩
  · rintro (⟨rfl, hafter⟩ | ⟨before, after, rfl, hafter⟩)
    · exact ⟨xs, [], rfl, hafter⟩
    · exact ⟨before, after ++ [y], by simp, hafter⟩

/-! ## Collecting -/

namespace Entries

variable {α : Type}

theorem get?_append (xs ys : Entries α) (key : String) :
    get? (xs ++ ys) key = (xs.get? key).or (ys.get? key) := by
  induction xs with
  | nil => rfl
  | cons entry rest ih =>
    simp only [List.cons_append, get?]
    split
    · rfl
    · exact ih

theorem collect_concat (pairs : List (String × α)) (pair : String × α) :
    collect (pairs ++ [pair]) = (collect pairs).insert pair.1 pair.2 := by
  simp [collect, List.foldl_append]

/-- What has been collected under a name is the last that was given. -/
theorem get?_collect_iff {pairs : List (String × α)} {name : String} {a : α} :
    (collect pairs).get? name = some a ↔
      ∃ before after, pairs = before ++ (name, a) :: after ∧ name ∉ keys after := by
  induction pairs using List.reverseRecOn with
  | nil => simp [collect]
  | append_singleton pairs pair ih =>
    rw [collect_concat, get?_insert, exists_split_concat_iff]
    obtain ⟨given, value⟩ := pair
    -- Either the last pair is the one in question, or it has another name.
    by_cases hname : given = name
    · simp [hname, keys]
    · simpa [hname, Ne.symm hname, keys] using ih

theorem mem_collect_iff {pairs : List (String × α)} {name : String} {a : α} :
    (name, a) ∈ collect pairs ↔
      ∃ before after, pairs = before ++ (name, a) :: after ∧ name ∉ keys after := by
  rw [← get?_collect_iff]
  exact ⟨get?_of_mem (nodup_keys_collect pairs), mem_of_get?⟩

theorem mem_of_mem_collect {pairs : List (String × α)} {pair : String × α}
    (h : pair ∈ collect pairs) : pair ∈ pairs := by
  obtain ⟨before, after, rfl, -⟩ := mem_collect_iff.1 h
  simp

/-- What is collected has the names that were given. -/
theorem mem_keys_collect_iff {pairs : List (String × α)} {name : String} :
    name ∈ (collect pairs).keys ↔ name ∈ keys pairs := by
  induction pairs using List.reverseRecOn with
  | nil => rfl
  | append_singleton pairs pair ih =>
    rw [collect_concat, keys_insert]
    split
    · next hmem =>
      rw [ih, keys, keys, List.map_append, List.mem_append, or_iff_left_of_imp]
      rintro hname
      obtain rfl := List.mem_singleton.1 hname
      exact ih.1 hmem
    · rw [List.mem_append, ih, keys, keys, List.map_append, List.mem_append]
      rfl

/-- Of names that are all different those that are given values are different. -/
theorem nodup_keys_filterMap {ι : Type} {text : ι → String} {f : ι → Option α} {xs : List ι}
    (h : (xs.map text).Nodup) :
    (keys (xs.filterMap fun x => (f x).map fun a => (text x, a))).Nodup := by
  have hsub : (keys (xs.filterMap fun x => (f x).map fun a => (text x, a))).Sublist
      (xs.map text) := by
    clear h
    induction xs with
    | nil => exact .slnil
    | cons x rest ih =>
      rw [List.filterMap_cons]
      cases f x with
      | none => exact .cons _ ih
      | some a => exact .cons_cons _ ih
  exact hsub.nodup h

/-- Without repetition nothing is changed by collecting. -/
theorem collect_of_nodup {pairs : List (String × α)}
    (h : (keys pairs).Nodup) : collect pairs = pairs := by
  have hinsert : ∀ (entries : Entries α) (pair : String × α), pair.1 ∉ entries.keys →
      entries.insert pair.1 pair.2 = entries ++ [pair] := by
    intro entries pair hnew
    induction entries with
    | nil => rfl
    | cons entry rest ih =>
      simp only [keys_cons, List.mem_cons, not_or] at hnew
      rw [insert, if_neg (Ne.symm hnew.1), ih hnew.2, List.cons_append]
  -- What has been collected so far has none of the keys that are still to come.
  suffices ∀ entries : Entries α, (entries ++ pairs : Entries α).keys.Nodup →
      pairs.foldl (fun entries pair => entries.insert pair.1 pair.2) entries =
        entries ++ pairs from this [] h
  intro entries hnodup
  induction pairs generalizing entries with
  | nil => simp
  | cons pair rest ih =>
    have hnew : pair.1 ∉ entries.keys := by
      intro hmem
      simp only [keys, List.map_append, List.nodup_append, List.map_cons] at hnodup
      exact hnodup.2.2 _ hmem _ (List.mem_cons_self ..) rfl
    have happend : entries ++ pair :: rest = (entries ++ [pair]) ++ rest := by simp
    rw [List.foldl_cons, hinsert entries pair hnew, happend]
    rw [happend] at hnodup
    simp only [keys_cons, List.nodup_cons] at h
    exact ih h.2 (entries ++ [pair]) hnodup

end Entries

/-! ## Side by side -/

/-- The same keys in the same order, with related values. -/
abbrev Entries.Alongside {α β : Type} (R : α → β → Prop) (xs : Entries α) (ys : Entries β) :
    Prop :=
  List.Forall₂ (fun x y => x.1 = y.1 ∧ R x.2 y.2) xs ys

namespace Entries.Alongside

variable {α β : Type} {R : α → β → Prop} {xs : Entries α} {ys : Entries β}

theorem keys_eq (h : Entries.Alongside R xs ys) : xs.keys = ys.keys := by
  induction h with
  | nil => rfl
  | cons hxy _ ih => rw [Entries.keys_cons, Entries.keys_cons, ih, hxy.1]

/-- Side by side are the entries if the keys are the same and the values side by side. -/
theorem of_keys_eq (hkeys : xs.keys = ys.keys)
    (hvalues : List.Forall₂ R (xs.map Prod.snd) (ys.map Prod.snd)) : Entries.Alongside R xs ys := by
  induction xs generalizing ys with
  | nil =>
    cases ys with
    | nil => exact .nil
    | cons y ys => cases hkeys
  | cons x xs ih =>
    cases ys with
    | nil => cases hkeys
    | cons y ys =>
      obtain ⟨hkey, hrest⟩ := List.cons.inj hkeys
      obtain _ | ⟨hvalue, hvalues⟩ := hvalues
      exact .cons ⟨hkey, hvalue⟩ (ih hrest hvalues)

theorem get?_rel (h : Entries.Alongside R xs ys) (key : String) :
    Option.Rel R (xs.get? key) (ys.get? key) := by
  induction h with
  | nil => exact .none
  | @cons x y xs ys hxy _ ih =>
    obtain ⟨hkey, hvalue⟩ := hxy
    by_cases hx : x.1 = key
    · simp only [Entries.get?, hx, ← hkey, if_true]
      exact .some hvalue
    · simp only [Entries.get?, hx, ← hkey, if_false]
      exact ih

theorem insert (h : Entries.Alongside R xs ys) (key : String) {v : α} {w : β}
    (hvw : R v w) : Entries.Alongside R (xs.insert key v) (ys.insert key w) := by
  induction h with
  | nil => exact .cons ⟨rfl, hvw⟩ .nil
  | @cons x y xs ys hxy hrest ih =>
    obtain ⟨hkey, hvalue⟩ := hxy
    by_cases hx : x.1 = key
    · simp only [Entries.insert, hx, ← hkey, if_true]
      exact .cons ⟨rfl, hvw⟩ hrest
    · simp only [Entries.insert, hx, ← hkey, if_false]
      exact .cons ⟨rfl, hvalue⟩ ih

theorem collect (h : Entries.Alongside R xs ys) :
    Entries.Alongside R (Entries.collect xs) (Entries.collect ys) := by
  unfold Entries.collect
  -- The induction needs the entries that have been collected so far.
  suffices ∀ {zs : Entries α} {ws : Entries β}, Entries.Alongside R zs ws →
      Entries.Alongside R (xs.foldl (fun entries pair => entries.insert pair.1 pair.2) zs)
        (ys.foldl (fun entries pair => entries.insert pair.1 pair.2) ws) from this .nil
  induction h with
  | nil => exact id
  | @cons x y xs ys hxy _ ih =>
    intro zs ws hzs
    have hnext : Entries.Alongside R (zs.insert x.1 x.2) (ws.insert y.1 y.2) :=
      hxy.1 ▸ hzs.insert x.1 hxy.2
    exact ih hnext

end Entries.Alongside

namespace Entries

variable {α : Type}

theorem alongside_eq_iff {β : Type} {f : α → β} {xs : Entries α} {ys : Entries β} :
    Alongside (fun a b => f a = b) xs ys ↔ mapValues f xs = ys := by
  induction xs generalizing ys with
  | nil => cases ys <;> simp [mapValues]
  | cons x xs ih =>
    cases ys with
    | nil => simp [mapValues]
    | cons y ys => simp [ih, mapValues, Prod.ext_iff]

theorem get?_mapValues {β : Type} (f : α → β) (entries : Entries α) (key : String) :
    (mapValues f entries).get? key = (entries.get? key).map f := by
  induction entries with
  | nil => rfl
  | cons entry rest ih =>
    by_cases h : entry.1 = key
    · simp [mapValues, get?, h]
    · simpa [mapValues, get?, h] using ih

theorem collect_mapValues {β : Type} (f : α → β) (pairs : List (String × α)) :
    collect (mapValues f pairs) = mapValues f (collect pairs) :=
  (alongside_eq_iff.1 (Alongside.collect (alongside_eq_iff.2 rfl))).symm

end Entries

end Conform
