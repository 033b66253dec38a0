import Cauli.Beat.Model
import Cauli.Lib.KeyedFold

/-!
# Reconciliation (`py/cauli/beat.py`)

`Beat.sync_code_entries`: the entries that the program declares are pushed into Redis, and stored
entries of source `code` that it no longer declares are deleted.

An entry is its name, its source and the other fields of `to_dict`; how it is stored is a parameter
(`Format`): `load`'s reading of a hash field, which may find it unusable, the source that a stored text
names whether or not it can be used, `_codec.encode`, which may refuse an entry, and the comparison of
the other fields.

* `Keys`, `load`, `upsert`, `delete`: the five keys of the store;
* `syncCodeEntries`: both loops;
* `row_of_declared`, `row_of_not_declared`: what the loops leave at each name;
* `sync_touches_only_code_iff`: when the entries of other sources stay as they are and the stored
  entries of source `code` are the declared ones. A declared name that an operator's entry already has
  is pushed over it.
-/

namespace Cauli.Reconcile

/-- A schedule entry, with the fields of `to_dict` that are neither its name nor its source. -/
structure Entry (β : Type) where
  name : String
  source : String
  fields : β

/-- How entries are stored. `read` is the body of the loop of `load` at a hash field: the decoder, the
default for the name, and `from_dict`; `source` is the source in what the decoder gives, if it gives a
dict; `write` is the encoder on `to_dict`; `same` compares the values of two dicts by `==`. -/
structure Format (β ρ : Type) where
  read : String → ρ → Option (Entry β)
  source : ρ → Option String
  source_of_read : ∀ {n raw e}, read n raw = some e → source raw = some e.source
  write : Entry β → Option ρ
  same : β → β → Bool

variable {β ρ : Type} (fmt : Format β ρ)

/-- `a.to_dict() == b.to_dict()`. -/
def Format.sameDict (a b : Entry β) : Bool :=
  a.name == b.name && a.source == b.source && fmt.same a.fields b.fields

/-- The beat keys. -/
structure Keys (ρ : Type) where
  schedule : Hash ρ := ∅
  due : Hash ℚ := ∅
  rev : Hash String := ∅
  state : Hash String := ∅
  runs : Hash ℤ := ∅

/-- One turn of the loop of `load`. -/
def loadEntry (out : Hash (Entry β)) (name : String) (raw : ρ) : Hash (Entry β) :=
  (fmt.read name raw).elim out fun e => out.insert name e

/-- `load`. -/
def load (k : Keys ρ) : Hash (Entry β) :=
  k.schedule.pairs.foldl (fun out p => loadEntry fmt out p.1 p.2) ∅

/-- `upsert`; `none` when the encoder raises. -/
def upsert (k : Keys ρ) (e : Entry β) : Option (Keys ρ) :=
  (fmt.write e).map fun raw => { k with schedule := k.schedule.insert e.name raw }

/-- `delete`. -/
def delete (k : Keys ρ) (name : String) : Keys ρ where
  schedule := k.schedule.erase name
  due := k.due.erase name
  rev := k.rev.erase name
  state := k.state.erase name
  runs := k.runs.erase name

/-- The entry that `add_periodic_task` declares under a name. -/
def declare (name : String) (fields : β) : Entry β := ⟨name, "code", fields⟩

/-- One turn of the loop over the declared entries. -/
def pushEntry (existing : Hash (Entry β)) (k : Keys ρ) (name : String) (fields : β) :
    Option (Keys ρ) :=
  match existing.lookup (declare name fields).name with
  | none => upsert fmt k (declare name fields)
  | some current =>
    if fmt.sameDict current (declare name fields) then some k
    else upsert fmt k (declare name fields)

/-- One turn of the loop over the entries that were loaded. -/
def reapEntry (declared : Hash β) (k : Keys ρ) (name : String) (e : Entry β) : Keys ρ :=
  if e.source = "code" ∧ name ∉ declared then delete k name else k

/-- `sync_code_entries`. The declared entries by name; `none` when an exception leaves it. -/
def syncCodeEntries (declared : Hash β) (k : Keys ρ) : Option (Keys ρ) :=
  (declared.pairs.foldlM (fun k' p => pushEntry fmt (load fmt k) k' p.1 p.2) k).map fun k' =>
    (load fmt k).pairs.foldl (fun k'' p => reapEntry declared k'' p.1 p.2) k'

/-! ### What is stored under a name -/

/-- What the five keys hold under a name. -/
@[ext]
structure Row (ρ : Type) where
  definition : Option ρ
  slot : Option ℚ
  rev : Option String
  state : Option String
  runs : Option ℤ

/-- What the keys hold under a name. -/
def row (k : Keys ρ) (n : String) : Row ρ where
  definition := k.schedule.lookup n
  slot := k.due.lookup n
  rev := k.rev.lookup n
  state := k.state.lookup n
  runs := k.runs.lookup n

/-- Nothing is stored. -/
def Row.empty : Row ρ := ⟨none, none, none, none, none⟩

/-- The entry that `load` reads in a row. -/
def Format.entryOf (n : String) (r : Row ρ) : Option (Entry β) := r.definition.bind (fmt.read n)

/-- What a turn of the loop of `load` leaves at its own name. -/
def loadValue (name : String) (raw : ρ) (v : Option (Entry β)) : Option (Entry β) :=
  (fmt.read name raw).elim v some

/-- The entry of a name. -/
def entryAt (out : Hash (Entry β)) (n : String) : Option (Entry β) := out.lookup n

theorem entryAt_loadEntry (out : Hash (Entry β)) (name : String) (raw : ρ) :
    entryAt (loadEntry fmt out name raw) name = loadValue fmt name raw (entryAt out name) := by
  unfold loadEntry loadValue
  cases fmt.read name raw with
  | none => rfl
  | some e => exact AList.lookup_insert out

theorem entryAt_loadEntry_of_ne (out : Hash (Entry β)) (name : String) (raw : ρ) (n : String)
    (hne : n ≠ name) : entryAt (loadEntry fmt out name raw) n = entryAt out n := by
  unfold loadEntry
  cases fmt.read name raw with
  | none => rfl
  | some e => exact AList.lookup_insert_ne hne

theorem lookup_load (k : Keys ρ) (n : String) :
    (load fmt k).lookup n = fmt.entryOf n (row k n) := by
  unfold Format.entryOf row
  cases hraw : k.schedule.lookup n with
  | none =>
    exact get_foldl_of_notMem (entryAt_loadEntry_of_ne fmt) (AList.notMem_map_fst_pairs hraw) ∅
  | some raw =>
    refine (get_foldl_of_mem (entryAt_loadEntry fmt) (entryAt_loadEntry_of_ne fmt)
      k.schedule.nodup_pairs (AList.mem_pairs.2 hraw) ∅).trans ?_
    show loadValue fmt n raw none = fmt.read n raw
    unfold loadValue
    cases fmt.read n raw <;> rfl

@[simp] theorem row_delete (k : Keys ρ) (n : String) : row (delete k n) n = Row.empty := by
  simp [row, delete, Row.empty]

theorem row_delete_of_ne {n name : String} (hne : n ≠ name) (k : Keys ρ) :
    row (delete k name) n = row k n := by
  simp [row, delete, AList.lookup_erase_ne hne]

/-! ### The loop over the declared entries -/

section Push

variable (existing : Hash (Entry β))

/-- The stored entry is the declared one. -/
def Current (n : String) (fields : β) : Prop :=
  ∃ e, existing.lookup n = some e ∧ fmt.sameDict e (declare n fields)

instance (n : String) (fields : β) : Decidable (Current fmt existing n fields) :=
  decidable_of_iff ((existing.lookup n).any (fmt.sameDict · (declare n fields))) (by
    simp [Current, Option.any_eq_true])

theorem pushEntry_eq (k : Keys ρ) (n : String) (fields : β) :
    pushEntry fmt existing k n fields =
      if Current fmt existing n fields then some k else upsert fmt k (declare n fields) := by
  have hname : (declare n fields).name = n := rfl
  rw [pushEntry, hname]
  cases hexisting : existing.lookup n with
  | none =>
    have hnot : ¬Current fmt existing n fields := by simp [Current, hexisting]
    rw [if_neg hnot]
  | some e =>
    have hiff : Current fmt existing n fields ↔ fmt.sameDict e (declare n fields) := by
      simp [Current, hexisting]
    simp [hiff]

/-- What a turn leaves at its own name. -/
def pushValue (n : String) (fields : β) (r : Row ρ) : Row ρ :=
  if Current fmt existing n fields then r else { r with definition := fmt.write (declare n fields) }

theorem isSome_pushEntry_iff (k : Keys ρ) (n : String) (fields : β) :
    (pushEntry fmt existing k n fields).isSome ↔
      (¬Current fmt existing n fields → (fmt.write (declare n fields)).isSome) := by
  rw [pushEntry_eq]
  split_ifs with hcurrent
  · simp [hcurrent]
  · simp [hcurrent, upsert]

theorem row_pushEntry (k : Keys ρ) (n : String) (fields : β) (k' : Keys ρ)
    (h : pushEntry fmt existing k n fields = some k') :
    row k' n = pushValue fmt existing n fields (row k n) := by
  rw [pushEntry_eq] at h
  unfold pushValue
  split_ifs at h ⊢ with hcurrent
  · cases h
    rfl
  · obtain ⟨raw, hraw, rfl⟩ := Option.map_eq_some_iff.1 h
    rw [hraw]
    simp [row, declare]

theorem row_pushEntry_of_ne (k : Keys ρ) (name : String) (fields : β) (k' : Keys ρ) (n : String)
    (h : pushEntry fmt existing k name fields = some k') (hne : n ≠ name) : row k' n = row k n := by
  rw [pushEntry_eq] at h
  split_ifs at h with hcurrent
  · cases h
    rfl
  · obtain ⟨raw, hraw, rfl⟩ := Option.map_eq_some_iff.1 h
    simp [row, declare, AList.lookup_insert_ne hne]

end Push

/-! ### The loop over the loaded entries -/

/-- What a turn of the loop over the loaded entries leaves at its own name. -/
def reapValue (declared : Hash β) (n : String) (e : Entry β) (r : Row ρ) : Row ρ :=
  if e.source = "code" ∧ n ∉ declared then Row.empty else r

theorem row_reapEntry (declared : Hash β) (k : Keys ρ) (n : String) (e : Entry β) :
    row (reapEntry declared k n e) n = reapValue declared n e (row k n) := by
  unfold reapEntry reapValue
  split_ifs
  · exact row_delete k n
  · rfl

theorem row_reapEntry_of_ne (declared : Hash β) (k : Keys ρ) (name : String) (e : Entry β)
    (n : String) (hne : n ≠ name) : row (reapEntry declared k name e) n = row k n := by
  unfold reapEntry
  split_ifs
  · exact row_delete_of_ne hne k
  · rfl

variable {fmt} {declared : Hash β} {k k' : Keys ρ} {n : String}

theorem isSome_syncCodeEntries_iff :
    (syncCodeEntries fmt declared k).isSome ↔
      ∀ n fields, declared.lookup n = some fields → ¬Current fmt (load fmt k) n fields →
        (fmt.write (declare n fields)).isSome := by
  rw [syncCodeEntries, Option.isSome_map, isSome_foldlM_iff (isSome_pushEntry_iff fmt (load fmt k))]
  constructor
  · exact fun h n fields hn => h (n, fields) (AList.mem_pairs.2 hn)
  · exact fun h p hp => h p.1 p.2 (AList.mem_pairs.1 hp)

/-- **A declared name after the loops**: its row as it was where the stored entry is the declared one,
and with the declared definition otherwise. -/
theorem row_of_declared (h : syncCodeEntries fmt declared k = some k') {fields : β}
    (hn : declared.lookup n = some fields) :
    row k' n = pushValue fmt (load fmt k) n fields (row k n) := by
  obtain ⟨k₁, hpush, rfl⟩ := Option.map_eq_some_iff.1 h
  have hmem : n ∈ declared := AList.lookup_isSome.1 (by simp [hn])
  have hreap : row ((load fmt k).pairs.foldl (fun k'' p => reapEntry declared k'' p.1 p.2) k₁) n =
      row k₁ n := by
    cases hloaded : (load fmt k).lookup n with
    | none =>
      have hnot := AList.notMem_map_fst_pairs hloaded
      exact get_foldl_of_notMem (row_reapEntry_of_ne declared) hnot k₁
    | some e =>
      refine (get_foldl_of_mem (row_reapEntry declared) (row_reapEntry_of_ne declared)
        (load fmt k).nodup_pairs (AList.mem_pairs.2 hloaded) k₁).trans ?_
      exact if_neg fun h => h.2 hmem
  rw [hreap]
  exact get_foldlM_of_mem (row_pushEntry fmt (load fmt k)) (row_pushEntry_of_ne fmt (load fmt k))
    declared.nodup_pairs (AList.mem_pairs.2 hn) hpush

/-- **Any other name after the loops**: an entry of source `code` is gone from all five keys, and
everything else is as it was. -/
theorem row_of_not_declared (h : syncCodeEntries fmt declared k = some k')
    (hn : declared.lookup n = none) :
    row k' n = (fmt.entryOf n (row k n)).elim (row k n) fun e => reapValue declared n e (row k n) := by
  obtain ⟨k₁, hpush, rfl⟩ := Option.map_eq_some_iff.1 h
  have hnot := AList.notMem_map_fst_pairs hn
  have hkept : row k₁ n = row k n :=
    get_foldlM_of_notMem (row_pushEntry_of_ne fmt (load fmt k)) hnot hpush
  rw [← lookup_load]
  cases hloaded : (load fmt k).lookup n with
  | none =>
    have hnot := AList.notMem_map_fst_pairs hloaded
    exact (get_foldl_of_notMem (row_reapEntry_of_ne declared) hnot k₁).trans hkept
  | some e =>
    refine (get_foldl_of_mem (row_reapEntry declared) (row_reapEntry_of_ne declared)
      (load fmt k).nodup_pairs (AList.mem_pairs.2 hloaded) k₁).trans ?_
    rw [hkept]
    rfl

/-! ### Only entries of source `code` are touched -/

/-- Stored entries of other sources, readable or not, are as they were, and the readable entries of
source `code` are the declared ones. -/
structure Reconciled (fmt : Format β ρ) (declared : Hash β) (k k' : Keys ρ) : Prop where
  others : ∀ n raw, k.schedule.lookup n = some raw → fmt.source raw ≠ some "code" → row k' n = row k n
  pushed : ∀ n fields, declared.lookup n = some fields →
    ∃ e, fmt.entryOf n (row k' n) = some e ∧ fmt.sameDict e (declare n fields)
  reaped : ∀ n e, fmt.entryOf n (row k' n) = some e → e.source = "code" → n ∈ declared

/-- The declared entry can be stored and reads back as itself. -/
def ReadsBack (fmt : Format β ρ) (n : String) (fields : β) : Prop :=
  ∃ raw e, fmt.write (declare n fields) = some raw ∧ fmt.read n raw = some e ∧
    fmt.sameDict e (declare n fields)

theorem source_of_sameDict {e : Entry β} {fields : β} (h : fmt.sameDict e (declare n fields)) :
    e.source = "code" := by
  simp only [Format.sameDict, Bool.and_eq_true, beq_iff_eq] at h
  exact h.1.2

/-- An entry of another source keeps its row, where no declared entry is pushed over it. -/
theorem row_of_other_source (h : syncCodeEntries fmt declared k = some k') {raw : ρ}
    (hraw : k.schedule.lookup n = some raw) (hsource : fmt.source raw ≠ some "code")
    (hcurrent : ∀ fields, declared.lookup n = some fields → Current fmt (load fmt k) n fields) :
    row k' n = row k n := by
  cases hn : declared.lookup n with
  | none =>
    have hentry : fmt.entryOf n (row k n) = fmt.read n raw := by simp [Format.entryOf, row, hraw]
    rw [row_of_not_declared h hn, hentry]
    cases hread : fmt.read n raw with
    | none => rfl
    | some e =>
      refine if_neg fun hcode => hsource ?_
      rw [fmt.source_of_read hread, hcode.1]
  | some fields =>
    rw [row_of_declared h hn]
    exact if_pos (hcurrent fields hn)

/-- A declared entry that reads back, or is stored already, is there after the loops. -/
theorem entryOf_of_declared (h : syncCodeEntries fmt declared k = some k') {fields : β}
    (hn : declared.lookup n = some fields)
    (hback : ¬Current fmt (load fmt k) n fields → ReadsBack fmt n fields) :
    ∃ e, fmt.entryOf n (row k' n) = some e ∧ fmt.sameDict e (declare n fields) := by
  rw [row_of_declared h hn, pushValue]
  by_cases hcurrent : Current fmt (load fmt k) n fields
  · rw [if_pos hcurrent, ← lookup_load]
    exact hcurrent
  · rw [if_neg hcurrent]
    obtain ⟨raw, e, hraw, hread, hsame⟩ := hback hcurrent
    exact ⟨e, by simp [Format.entryOf, hraw, hread], hsame⟩

/-- After the loops every readable entry of source `code` is a declared one. -/
theorem mem_declared_of_code (h : syncCodeEntries fmt declared k = some k') {e : Entry β}
    (he : fmt.entryOf n (row k' n) = some e) (hsource : e.source = "code") : n ∈ declared := by
  by_contra hmem
  rw [row_of_not_declared h (AList.lookup_eq_none.2 hmem)] at he
  cases hloaded : fmt.entryOf n (row k n) with
  | none =>
    rw [hloaded, Option.elim_none, hloaded] at he
    cases he
  | some e₀ =>
    rw [hloaded, Option.elim_some, reapValue] at he
    split_ifs at he with hcode
    · cases he
    · rw [hloaded] at he
      cases he
      exact hcode ⟨hsource, hmem⟩

/-- **When reconciliation touches only code entries**, for every set of declared entries and every
content of the keys: exactly when every declared entry that is not stored already as it is declared has
a name under which no entry of another source is stored, readable or not, can be encoded, and reads back
as itself. -/
theorem sync_touches_only_code_iff (fmt : Format β ρ) (declared : Hash β) (k : Keys ρ) :
    (∃ k', syncCodeEntries fmt declared k = some k' ∧ Reconciled fmt declared k k') ↔
      ∀ n fields, declared.lookup n = some fields → ¬Current fmt (load fmt k) n fields →
        (∀ raw, k.schedule.lookup n = some raw → fmt.source raw = some "code") ∧
          ReadsBack fmt n fields := by
  constructor
  · rintro ⟨k', hsync, hreconciled⟩ n fields hn hcurrent
    obtain ⟨e, he, hsame⟩ := hreconciled.pushed n fields hn
    have hrow := row_of_declared hsync hn
    rw [pushValue, if_neg hcurrent] at hrow
    constructor
    · intro raw hraw
      by_contra hsource
      -- an entry of another source would still be there, and it is not the declared one
      rw [hreconciled.others n raw hraw hsource] at he
      exact hcurrent ⟨e, (lookup_load fmt k n).trans he, hsame⟩
    · rw [hrow] at he
      obtain ⟨raw, hraw, hread⟩ := Option.bind_eq_some_iff.1 he
      exact ⟨raw, e, hraw, hread, hsame⟩
  · intro h
    have hsome : (syncCodeEntries fmt declared k).isSome := by
      rw [isSome_syncCodeEntries_iff]
      intro n fields hn hcurrent
      obtain ⟨raw, e, hraw, -⟩ := (h n fields hn hcurrent).2
      rw [hraw]
      rfl
    obtain ⟨k', hsync⟩ := Option.isSome_iff_exists.1 hsome
    refine ⟨k', hsync, ?_, ?_, ?_⟩
    · intro n raw hraw hsource
      refine row_of_other_source hsync hraw hsource fun fields hn => ?_
      by_contra hcurrent
      exact hsource ((h n fields hn hcurrent).1 raw hraw)
    · intro n fields hn
      exact entryOf_of_declared hsync hn fun hcurrent => (h n fields hn hcurrent).2
    · intro n e he hsource
      exact mem_declared_of_code hsync he hsource

/-- Entries with a task as their only other field, stored as they are. -/
def plainFormat : Format String (Entry String) where
  read _ e := some e
  source e := some e.source
  source_of_read h := congrArg (Option.map Entry.source) h
  write e := some e
  same := (· == ·)

/-- An entry that an operator made. -/
def operatorEntry : Entry String := ⟨"report", "redis", "app.adhoc"⟩

/-- The operator's entry, with its slot. -/
def operatorKeys : Keys (Entry String) where
  schedule := AList.singleton "report" operatorEntry
  due := AList.singleton "report" 60_000

/-- The program declares an entry of the same name, and the operator's definition is lost. -/
theorem operator_entry_overwritten :
    ¬∃ k', syncCodeEntries plainFormat (AList.singleton "report" "app.report") operatorKeys =
        some k' ∧
      Reconciled plainFormat (AList.singleton "report" "app.report") operatorKeys k' := by
  rintro ⟨k', hsync, hreconciled⟩
  have hrow := hreconciled.others "report" operatorEntry rfl (by decide)
  have hlookup : (AList.singleton "report" "app.report" : Hash String).lookup "report" =
      some "app.report" := rfl
  have hdeclared := row_of_declared hsync hlookup
  have hpushed : (row k' "report").definition = some ⟨"report", "code", "app.report"⟩ := by
    rw [hdeclared, pushValue, if_neg]
    · rfl
    · rintro ⟨e, he, hsame⟩
      cases he
      exact absurd (source_of_sameDict hsame) (by decide)
  rw [hrow] at hpushed
  exact absurd (congrArg (Option.map Entry.source) hpushed) (by decide)

end Cauli.Reconcile
