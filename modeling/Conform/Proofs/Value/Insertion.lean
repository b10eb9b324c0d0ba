import Mathlib.Data.List.Induction
import Conform.Proofs.Value.Entries
import Conform.Proofs.Value.Heap

/-!
# Objects in the order of insertion

The fields of an object are a bare list that is searched from the front.  That the list is
a map, and in which order it stands, comes of what has been done to it: each of its
operations finds the first entry with a key, and only a key that is not found is appended.

What has been done to a map is its history.  A history says of itself, without any entries,
which value a key has (that of its last insertion, unless the key was erased later) and
when the key came in (when it was inserted and was not there, and has been there since).
Entries are in the order of insertion when they are what the history says.  One edit keeps
that, and so do the calls that are made on the objects of a heap: the history of an object
begins with the pairs it was collected of and goes on with the edits through its reference.

## Main definitions

* `Edit`, `Entries.edit`: one change of a map.
* `History.Latest`, `History.Entered`: the value of a key, and the moment it came in.
* `Entries.InsertionOrdered`: the entries are what a history says.
* `ObjectCall`: what can be done with objects.

## Main results

* `Entries.InsertionOrdered.edit`: an edit keeps entries in the order of insertion.
* `Entries.filter_edit`: an edit leaves the entries of the other keys where they are.
* `object_insertionOrdered`: objects are in the order of insertion after all calls.
-/

namespace Conform

variable {α : Type}

/-- One change of a map. -/
inductive Edit (α : Type) where
  | insert (key : String) (value : α)
  | erase (key : String)

namespace Edit

/-- The key that an edit is about. -/
def key : Edit α → String
  | insert key _ => key
  | erase key => key

/-- The value that the key has afterwards. -/
def value? : Edit α → Option α
  | insert _ value => some value
  | erase _ => none

theorem eq_insert_iff {edit : Edit α} {key : String} {value : α} :
    edit = .insert key value ↔ edit.key = key ∧ edit.value? = some value := by
  cases edit <;> simp [Edit.key, Edit.value?]

end Edit

/-- The edits of a map, from the first to the last. -/
abbrev History (α : Type) := List (Edit α)

/-! ## What a history says -/

namespace History

/-- The history of a map that is collected: its pairs are inserted one after the other. -/
def ofPairs (pairs : List (String × α)) : History α :=
  pairs.map fun pair => .insert pair.1 pair.2

/-- The last insertion of the key gave the value, and the key has not been erased since. -/
def Latest (history : History α) (key : String) (value : α) : Prop :=
  ∃ before after, history = before ++ .insert key value :: after ∧
    ∀ edit ∈ after, edit.key ≠ key

/-- The key is there in the end. -/
def Present (history : History α) (key : String) : Prop := ∃ value, Latest history key value

/-- The edit at that moment inserted the key, which was absent before and has been present
ever since. -/
def Entered (history : History α) (key : String) (moment : Nat) : Prop :=
  (∃ value, history[moment]? = some (.insert key value)) ∧
    ¬ Present (history.take moment) key ∧
    ∀ later, moment < later → later ≤ history.length → Present (history.take later) key

/-- The first key came in before the second. -/
def Precedes (history : History α) (first second : String) : Prop :=
  ∃ moment later, moment < later ∧
    Entered history first moment ∧ Entered history second later

variable {history : History α} {edit : Edit α} {key : String} {value : α} {moment : Nat}

theorem not_latest_nil : ¬ Latest ([] : History α) key value := by
  rintro ⟨before, after, h, -⟩
  simp at h

/-- The last edit settles what becomes of its key, and of no other. -/
theorem latest_concat_iff : Latest (history ++ [edit]) key value ↔
    if edit.key = key then edit.value? = some value else Latest history key value := by
  unfold Latest
  rw [exists_split_concat_iff, Edit.eq_insert_iff]
  simp only [List.forall_mem_append, List.forall_mem_singleton]
  by_cases hkey : edit.key = key <;> simp [hkey]

theorem Entered.lt_length (h : Entered history key moment) : moment < history.length := by
  obtain ⟨⟨value, hvalue⟩, -⟩ := h
  exact (List.getElem?_eq_some_iff.1 hvalue).1

/-- A key has come in once: at a later moment it was there already. -/
theorem Entered.unique {other : Nat} (h : Entered history key moment)
    (hother : Entered history key other) : moment = other := by
  rcases Nat.lt_trichotomy moment other with hlt | rfl | hlt
  · exact absurd (h.2.2 other hlt (Nat.le_of_lt hother.lt_length)) hother.2.1
  · rfl
  · exact absurd (hother.2.2 moment hlt (Nat.le_of_lt h.lt_length)) h.2.1

/-- A key that is still there came in when it did. -/
theorem Entered.concat (h : Entered history key moment)
    (hpresent : Present (history ++ [edit]) key) : Entered (history ++ [edit]) key moment := by
  have hlt := h.lt_length
  obtain ⟨⟨value, hvalue⟩, habsent, hsince⟩ := h
  refine ⟨⟨value, ?_⟩, ?_, fun later hlater hle => ?_⟩
  · rw [List.getElem?_append_left hlt, hvalue]
  · rwa [List.take_append_of_le_length (Nat.le_of_lt hlt)]
  -- Only the last moment sees the new edit.
  · rcases Nat.lt_or_ge history.length later with hend | hwithin
    · rwa [List.take_of_length_le (by simpa using Nat.succ_le_of_lt hend)]
    · rw [List.take_append_of_le_length hwithin]
      exact hsince later hlater hwithin

/-- A key that was absent comes in when it is inserted. -/
theorem entered_concat_insert (habsent : ¬ Present history key) :
    Entered (history ++ [.insert key value]) key history.length := by
  refine ⟨⟨value, by simp⟩, by simpa using habsent, fun later hlater _ => ?_⟩
  rw [List.take_of_length_le (by simpa using Nat.succ_le_of_lt hlater)]
  exact ⟨value, history, [], rfl, by simp⟩

theorem Precedes.concat {first second : String} (h : Precedes history first second)
    (hfirst : Present (history ++ [edit]) first)
    (hsecond : Present (history ++ [edit]) second) :
    Precedes (history ++ [edit]) first second := by
  obtain ⟨moment, later, hlt, hmoment, hlater⟩ := h
  exact ⟨moment, later, hlt, hmoment.concat hfirst, hlater.concat hsecond⟩

end History

/-! ## Edits of entries -/

namespace Entries

open History

/-- Makes an edit. -/
def edit (entries : Entries α) : Edit α → Entries α
  | .insert key value => entries.insert key value
  | .erase key => entries.erase key

variable {entries : Entries α} {history : History α}

theorem nodup_keys_edit (distinct : entries.keys.Nodup) (edit : Edit α) :
    (entries.edit edit).keys.Nodup := by
  cases edit with
  | insert key value => exact nodup_keys_insert distinct key value
  | erase key => exact nodup_keys_erase distinct key

theorem get?_edit (distinct : entries.keys.Nodup) (edit : Edit α) (key : String) :
    (entries.edit edit).get? key = if edit.key = key then edit.value? else entries.get? key := by
  cases edit with
  | insert name value => exact get?_insert entries name value key
  | erase name => exact get?_erase distinct name key

/-- No key moves: keys stay or go, and only a key that was absent is added, at the end. -/
theorem keys_edit (entries : Entries α) (edit : Edit α) :
    (entries.edit edit).keys.Sublist entries.keys ∨
      ∃ key value, edit = .insert key value ∧ key ∉ entries.keys ∧
        (entries.edit edit).keys = entries.keys ++ [key] := by
  cases edit with
  | insert key value =>
    by_cases hkey : key ∈ entries.keys
    · exact .inl (by rw [Entries.edit, keys_insert, if_pos hkey])
    · exact .inr ⟨key, value, rfl, hkey, by rw [Entries.edit, keys_insert, if_neg hkey]⟩
  | erase key => exact .inl (by rw [Entries.edit, keys_erase]; exact List.erase_sublist)

/-- The entries of the other keys keep their values and their order. -/
theorem filter_edit (entries : Entries α) (edit : Edit α) :
    (entries.edit edit).filter (edit.key != ·.1) = entries.filter (edit.key != ·.1) := by
  induction entries with
  | nil => cases edit <;> simp [Entries.edit, insert, erase, Edit.key]
  | cons entry rest ih =>
    cases edit with
    | insert key value =>
      by_cases hkey : entry.1 = key
      · simp [Entries.edit, insert, Edit.key, hkey]
      · simpa [Entries.edit, insert, Edit.key, hkey, Ne.symm hkey] using ih
    | erase key =>
      by_cases hkey : entry.1 = key
      · simp [Entries.edit, erase, Edit.key, hkey]
      · simpa [Entries.edit, erase, Edit.key, hkey, Ne.symm hkey] using ih

/-! ## The order of insertion -/

/-- The entries are what the history says: each key once, with its value, and the keys in
the order in which they came in. -/
structure InsertionOrdered (entries : Entries α) (history : History α) : Prop where
  nodup : entries.keys.Nodup
  get?_iff : ∀ key value, entries.get? key = some value ↔ history.Latest key value
  mem_iff : ∀ key value, (key, value) ∈ entries ↔ history.Latest key value
  mem_keys_iff : ∀ key, key ∈ entries.keys ↔ history.Present key
  /-- The moment a key came in is a matter of the history alone, so there is but one order. -/
  entered : ∀ key ∈ entries.keys, ∃! moment, history.Entered key moment
  ordered : entries.keys.Pairwise history.Precedes

/-- What is read under the keys and when these came in says all. -/
theorem insertionOrdered_of (nodup : entries.keys.Nodup)
    (hget : ∀ key value, entries.get? key = some value ↔ history.Latest key value)
    (hentered : ∀ key ∈ entries.keys, ∃ moment, history.Entered key moment)
    (hordered : entries.keys.Pairwise history.Precedes) : entries.InsertionOrdered history where
  nodup := nodup
  get?_iff := hget
  mem_iff key value := by
    rw [← hget]
    exact ⟨get?_of_mem nodup, mem_of_get?⟩
  mem_keys_iff key := by
    rw [mem_keys_iff_exists]
    exact exists_congr (hget key)
  entered key hkey := by
    obtain ⟨moment, hmoment⟩ := hentered key hkey
    exact ⟨moment, hmoment, fun other hother => hother.unique hmoment⟩
  ordered := hordered

theorem insertionOrdered_nil : InsertionOrdered ([] : Entries α) [] :=
  insertionOrdered_of List.nodup_nil (fun _ _ => iff_of_false nofun not_latest_nil) nofun .nil

namespace InsertionOrdered

variable {last : Edit α} {key : String}

theorem get?_edit_iff (h : entries.InsertionOrdered history) (last : Edit α) (key : String)
    (value : α) : (entries.edit last).get? key = some value ↔
      Latest (history ++ [last]) key value := by
  rw [get?_edit h.nodup, latest_concat_iff]
  split
  · rfl
  · exact h.get?_iff key value

theorem present_edit (h : entries.InsertionOrdered history)
    (hkey : key ∈ (entries.edit last).keys) : Present (history ++ [last]) key :=
  ((mem_keys_iff_exists _ key).1 hkey).imp fun value => (h.get?_edit_iff last key value).1

/-- A key that was there and is there still came in when it did. -/
theorem entered_of_mem (h : entries.InsertionOrdered history) (hold : key ∈ entries.keys)
    (hkey : key ∈ (entries.edit last).keys) :
    ∃ moment < history.length, Entered (history ++ [last]) key moment := by
  obtain ⟨moment, hmoment, -⟩ := h.entered key hold
  exact ⟨moment, hmoment.lt_length, hmoment.concat (h.present_edit hkey)⟩

/-- A key that was not there comes in last. -/
theorem entered_of_not_mem (h : entries.InsertionOrdered history) (hnew : key ∉ entries.keys)
    (value : α) : Entered (history ++ [.insert key value]) key history.length :=
  entered_concat_insert fun hpresent => hnew ((h.mem_keys_iff key).2 hpresent)

theorem entered_edit (h : entries.InsertionOrdered history)
    (hkey : key ∈ (entries.edit last).keys) :
    ∃ moment, Entered (history ++ [last]) key moment := by
  by_cases hold : key ∈ entries.keys
  · obtain ⟨moment, -, hmoment⟩ := h.entered_of_mem hold hkey
    exact ⟨moment, hmoment⟩
  · rcases keys_edit entries last with hsub | ⟨new, value, rfl, hnew, hkeys⟩
    · exact absurd (hsub.subset hkey) hold
    · rw [hkeys, List.mem_append, List.mem_singleton] at hkey
      obtain rfl := hkey.resolve_left hold
      exact ⟨history.length, h.entered_of_not_mem hnew value⟩

theorem ordered_edit (h : entries.InsertionOrdered history) (last : Edit α) :
    (entries.edit last).keys.Pairwise (Precedes (history ++ [last])) := by
  have hstays : ∀ first ∈ (entries.edit last).keys, ∀ second ∈ (entries.edit last).keys,
      Precedes history first second → Precedes (history ++ [last]) first second :=
    fun first hfirst second hsecond hprecedes =>
      hprecedes.concat (h.present_edit hfirst) (h.present_edit hsecond)
  -- What is left keeps its order; a new key is appended.
  rcases keys_edit entries last with hsub | ⟨new, value, rfl, hnew, hkeys⟩
  · exact (h.ordered.sublist hsub).imp_of_mem fun hfirst hsecond => hstays _ hfirst _ hsecond
  · have hold : ∀ key ∈ entries.keys, key ∈ (entries.edit (.insert new value)).keys :=
      fun key hkey => hkeys ▸ List.mem_append_left [new] hkey
    rw [hkeys, List.pairwise_append]
    refine ⟨h.ordered.imp_of_mem fun hfirst hsecond =>
      hstays _ (hold _ hfirst) _ (hold _ hsecond), List.pairwise_singleton _ _, ?_⟩
    -- The new key comes in after every other.
    intro key hkey other hother
    obtain rfl := List.mem_singleton.1 hother
    obtain ⟨moment, hlt, hmoment⟩ := h.entered_of_mem hkey (hold key hkey)
    exact ⟨moment, history.length, hlt, hmoment, h.entered_of_not_mem hnew value⟩

/-- An edit keeps entries in the order of insertion. -/
theorem edit (h : entries.InsertionOrdered history) (last : Edit α) :
    (entries.edit last).InsertionOrdered (history ++ [last]) :=
  insertionOrdered_of (nodup_keys_edit h.nodup last) (h.get?_edit_iff last)
    (fun _ hkey => h.entered_edit hkey) (h.ordered_edit last)

end InsertionOrdered

/-- Collected entries are in the order of insertion. -/
theorem insertionOrdered_collect (pairs : List (String × α)) :
    (collect pairs).InsertionOrdered (.ofPairs pairs) := by
  induction pairs using List.reverseRecOn with
  | nil => exact insertionOrdered_nil
  | append_singleton pairs pair ih =>
    rw [collect_concat, History.ofPairs, List.map_append]
    exact ih.edit (.insert pair.1 pair.2)

end Entries

/-! ## Calls -/

/-- What can be done with the objects of a heap; an empty object is collected of no pairs. -/
inductive ObjectCall where
  | collect (pairs : List (String × Value))
  | insert (ref : Ref) (key : String) (value : Value)
  | erase (ref : Ref) (key : String)

namespace ObjectCall

/-- Makes a call; its answer is the new object or the value that the key had. -/
def run : ObjectCall → HeapM (Option Value)
  | collect pairs => some <$> Heap.newObject (.ofList pairs)
  | insert ref key value => Heap.replaceField ref key value
  | erase ref key => Heap.takeField ref key

/-- The heap after some calls. -/
def runAll (calls : List ObjectCall) (heap : Heap) : Heap :=
  calls.foldl (fun heap call => (call.run heap).2) heap

/-- What a call changes in the object behind a reference. -/
def edit? (ref : Ref) : ObjectCall → Option (Edit Value)
  | collect _ => none
  | insert target key value => if target = ref then some (.insert key value) else none
  | erase target key => if target = ref then some (.erase key) else none

/-- Whether a call leaves a key of the object behind a reference alone. -/
def spares (call : ObjectCall) (ref : Ref) (key : String) : Bool :=
  (call.edit? ref).all (·.key != key)

variable {heap : Heap} {ref : Ref} {fields : OrderedMap Value}

/-- A call edits the object that it is made on, and no other. -/
theorem fetch_run (hfetch : heap.fetch ref = .object fields) (call : ObjectCall) :
    ∃ fields', (call.run heap).2.fetch ref = .object fields' ∧
      fields'.entries = (call.edit? ref).elim fields.entries fields.entries.edit := by
  cases call with
  | collect pairs =>
    -- The new object takes a place of its own.
    have hlt := Heap.lt_size_of_fetch_eq_object hfetch
    refine ⟨fields, ?_, rfl⟩
    rw [← hfetch]
    exact (Heap.fetch_allocate heap _ ref).trans (if_neg (Nat.ne_of_lt hlt))
  | insert target key value =>
    refine ⟨if target = ref then fields.insert key value else fields, ?_, ?_⟩
    · rw [run, Heap.replaceField_apply]
      exact Heap.fetch_modifyFields hfetch target _
    · simp only [edit?]
      split_ifs <;> rfl
  | erase target key =>
    refine ⟨if target = ref then fields.erase key else fields, ?_, ?_⟩
    · rw [run, Heap.takeField_apply]
      exact Heap.fetch_modifyFields hfetch target _
    · simp only [edit?]
      split_ifs <;> rfl

/-- What a call leaves alone keeps its value and its place among the rest that is left. -/
theorem filter_run (hfetch : heap.fetch ref = .object fields) (call : ObjectCall) :
    ∃ fields', (call.run heap).2.fetch ref = .object fields' ∧
      fields'.entries.filter (call.spares ref ·.1) =
        fields.entries.filter (call.spares ref ·.1) := by
  obtain ⟨fields', hfetch', hentries⟩ := fetch_run hfetch call
  refine ⟨fields', hfetch', ?_⟩
  unfold spares
  cases hedit : call.edit? ref with
  | none => rw [hentries, hedit, Option.elim]
  | some edit =>
    rw [hentries, hedit]
    exact Entries.filter_edit fields.entries edit

/-- The calls go on with the history of an object. -/
theorem fetch_runAll {history : History Value} (hfetch : heap.fetch ref = .object fields)
    (h : fields.entries.InsertionOrdered history) (calls : List ObjectCall) :
    ∃ fields', (runAll calls heap).fetch ref = .object fields' ∧
      fields'.entries.InsertionOrdered (history ++ calls.filterMap (·.edit? ref)) := by
  induction calls generalizing heap fields history with
  | nil => exact ⟨fields, hfetch, by simpa using h⟩
  | cons call rest ih =>
    obtain ⟨fields', hfetch', hentries⟩ := fetch_run hfetch call
    rw [List.filterMap_cons]
    -- A call on something else does not show in the history.
    cases hedit : call.edit? ref with
    | none =>
      rw [hedit] at hentries
      exact ih hfetch' (hentries ▸ h)
    | some edit =>
      rw [hedit] at hentries
      have hnext : fields'.entries.InsertionOrdered (history ++ [edit]) :=
        hentries ▸ h.edit edit
      rw [List.append_cons]
      exact ih hfetch' hnext

end ObjectCall

/-- **Objects are in the order of insertion.**  Whatever calls are made after an object has
been collected of some pairs, its keys are pairwise distinct, a key has the value that was
last inserted and not removed since, and the keys stand in the order in which they came in.
Inserting and removing answer what the key had, and no call changes the value or the order
of the keys that it is not about, in this or in any other object. -/
theorem object_insertionOrdered (heap : Heap) (pairs : List (String × Value))
    (calls : List ObjectCall) :
    let ref : Ref := heap.size
    let now := ObjectCall.runAll (.collect pairs :: calls) heap
    let history := History.ofPairs pairs ++ calls.filterMap (·.edit? ref)
    ((ObjectCall.collect pairs).run heap).1 = some (.object ref) ∧
      (∃ fields, now.fetch ref = .object fields ∧ fields.entries.InsertionOrdered history) ∧
      (∀ key value old, ((ObjectCall.insert ref key value).run now).1 = some old ↔
        History.Latest history key old) ∧
      (∀ key old, ((ObjectCall.erase ref key).run now).1 = some old ↔
        History.Latest history key old) ∧
      ∀ (call : ObjectCall) (other : Ref) (fields : OrderedMap Value),
        now.fetch other = .object fields →
          ∃ fields', (call.run now).2.fetch other = .object fields' ∧
            fields'.entries.filter (call.spares other ·.1) =
              fields.entries.filter (call.spares other ·.1) := by
  intro ref now history
  have hmade : ((ObjectCall.collect pairs).run heap).2.fetch ref = .object (.ofList pairs) :=
    (Heap.fetch_allocate heap _ ref).trans (if_pos rfl)
  obtain ⟨fields, hfetch, hordered⟩ :=
    ObjectCall.fetch_runAll hmade (Entries.insertionOrdered_collect pairs) calls
  have hget : ∀ key old, (now.fields ref).get? key = some old ↔
      History.Latest history key old := by
    intro key old
    have hfields : now.fields ref = fields := congrArg Container.fields hfetch
    rw [hfields]
    exact hordered.get?_iff key old
  refine ⟨rfl, ⟨fields, hfetch, hordered⟩, fun key value old => ?_, fun key old => ?_,
    fun call other fields hother => ObjectCall.filter_run hother call⟩
  · rw [ObjectCall.run, Heap.replaceField_apply]
    exact hget key old
  · rw [ObjectCall.run, Heap.takeField_apply]
    exact hget key old

/-- A key that is removed and inserted again comes last; the other one is left alone. -/
theorem object_insertionOrdered_again :
    let calls : List ObjectCall := [.erase 0 "a", .collect [], .insert 0 "a" (.bool true)]
    let now := ObjectCall.runAll (.collect [("a", .null), ("b", .null)] :: calls) {}
    let fields : OrderedMap Value := ⟨[("b", .null), ("a", .bool true)], by decide⟩
    now.fetch 0 = .object fields ∧
      ∃ fields', ((ObjectCall.insert 0 "b" (.bool false)).run now).2.fetch 0 = .object fields' ∧
        fields'.entries.filter (fun entry => entry.1 != "b") = [("a", .bool true)] := by
  intro calls now fields
  have hfetch : now.fetch 0 = .object fields := rfl
  obtain ⟨-, -, -, -, hothers⟩ :=
    object_insertionOrdered {} [("a", .null), ("b", .null)] calls
  obtain ⟨fields', hfetch', hfilter⟩ :=
    hothers (.insert 0 "b" (.bool false)) 0 fields hfetch
  have hspares : (ObjectCall.insert 0 "b" (.bool false)).spares 0 = fun key => key != "b" :=
    funext fun key => bne_comm
  rw [hspares] at hfilter
  exact ⟨hfetch, fields', hfetch', hfilter⟩

end Conform
