import Mathlib.Data.List.MinMax
import Cauli.Lib.JsonText
import Cauli.Worker.Envelope

/-!
# Dispatch gates (`worker/src/dispatch.rs`)

The checks `process` makes on a parsed envelope before anything runs. An envelope that fails one of
them is dead lettered as malformed.

* `validTaskId`: 32 lowercase hex digits;
* `parsesAsTree`: what a raw capture accepts and a tree parse refuses (nesting, half surrogate
  pairs);
* `argsKwargsShapeOk`: `args` an array or null, `kwargs` an object or null;
* `passesGates`: all gates in the order of the source;
* `TreeScanner`: what a scan of a text with a depth counter accepts, whatever it runs on;
* `parsesAsTree_of_spells`: a text passes if it is not nested too deep and its strings denote
  strings.

Texts are lists of characters here. The source scans bytes, and every byte it looks for is ASCII,
which no part of a multibyte character is.
-/

namespace Cauli

open JsonToken JsonText

/-- 32 characters, all lowercase hex digits. -/
def validTaskId (id : String) : Bool :=
  id.toList.length == 32 && id.toList.all fun c => c.isDigit || ('a' ≤ c && c ≤ 'f')

/-- `serde_json`'s 127 levels minus the envelope object itself. -/
def MAX_ARG_NESTING : ℕ := 126

/-- The loop of `parses_as_tree`: nesting depth so far, and whether the position is in a string. -/
def treeScan (depth : ℕ) (inStr : Bool) : List Char → Bool
  | [] => true
  | '\\' :: 'u' :: a :: b :: c :: d :: rest =>
    if inStr then
      match hexUnit a b c d with
      | none => false -- `expect`: the text was validated before
      | some u =>
        if isTrail u then false
        else if isLead u then
          match rest with
          | '\\' :: 'u' :: a' :: b' :: c' :: d' :: rest' =>
            if (hexUnit a' b' c' d').any isTrail then treeScan depth true rest' else false
          | _ => false
        else treeScan depth true rest
    else treeScan depth false ('u' :: a :: b :: c :: d :: rest)
  | x :: rest =>
    if inStr then
      if x == '\\' then
        match rest with
        | [] => true
        | _ :: rest' => treeScan depth true rest'
      else treeScan depth (x != '"') rest
    else if x == '"' then treeScan depth true rest
    else if x == '[' || x == '\x7b' then
      if MAX_ARG_NESTING < depth + 1 then false else treeScan (depth + 1) false rest
    else if x == ']' || x == '\x7d' then treeScan (depth - 1) false rest
    else treeScan depth false rest

/-- `parses_as_tree`, with its fast path: few brackets and no escape. -/
def parsesAsTree (json : String) : Bool :=
  let b := json.toList
  if b.countP (fun x => x == '[' || x == '\x7b') ≤ MAX_ARG_NESTING && !b.contains '\\' then true
  else treeScan 0 false b

/-- `args` an array or null, `kwargs` an object or null. -/
def argsKwargsShapeOk (env : Envelope) : Bool :=
  let fits (raw : Option String) (opening : Char) : Bool :=
    raw.all fun r => r.toList.head? == some opening && parsesAsTree r
  fits env.args '[' && fits env.kwargs '\x7b'

/-- Every gate between the parse and the registry lookup. -/
def passesGates (env : Envelope) : Bool :=
  decide (env.v ≤ PROTOCOL_VERSION) && argsKwargsShapeOk env && env.timeoutMs != 0 &&
    (env.id != "" && env.task != "" && validTaskId env.id)

/-! ### What a scan accepts -/

/-- Characters outside strings that the scan does not look at. -/
def isDull (c : Char) : Bool :=
  c != '\\' && c != '"' && c != '[' && c != '\x7b' && c != ']' && c != '\x7d'

/-- A scan of a text that keeps the depth of its brackets: what it does at a character that means
nothing to it, at a bracket and at a string. -/
structure TreeScanner (β : Type) where
  scan : ℕ → List Char → β
  refuse : β
  dull : ∀ {c}, isDull c = true → ∀ depth rest, scan depth (c :: rest) = scan depth rest
  opening : ∀ {c}, c = '[' ∨ c = '\x7b' → ∀ depth rest, scan depth (c :: rest) =
    if MAX_ARG_NESTING < depth + 1 then refuse else scan (depth + 1) rest
  closing : ∀ {c}, isClose c = true → ∀ depth rest, scan (depth + 1) (c :: rest) = scan depth rest
  string : ∀ ps depth rest, scan depth ('"' :: (partsChars ps ++ rest)) =
    if (decodeParts ps).isSome then scan depth rest else refuse

/-- What a tree parse accepts at a depth. -/
def fitsAt (depth : ℕ) (t : JsonText) : Prop :=
  t.decodable = true ∧ depth + t.nesting ≤ MAX_ARG_NESTING

instance (depth : ℕ) (t : JsonText) : Decidable (fitsAt depth t) := by
  unfold fitsAt
  infer_instance

theorem foldr_max_le_iff {depth : ℕ} (hdepth : depth ≤ MAX_ARG_NESTING) (ns : List ℕ) :
    depth + ns.foldr max 0 ≤ MAX_ARG_NESTING ↔ ∀ n ∈ ns, depth + n ≤ MAX_ARG_NESTING := by
  induction ns with
  | nil => simpa using hdepth
  | cons n ns ih =>
    rw [List.foldr_cons, List.forall_mem_cons, ← ih]
    omega

theorem fitsAt_arr {depth : ℕ} (hdepth : depth + 1 ≤ MAX_ARG_NESTING) (ts : List JsonText) :
    fitsAt depth (.arr ts) ↔ ∀ t ∈ ts, fitsAt (depth + 1) t := by
  have hmax := foldr_max_le_iff hdepth (ts.map nesting)
  rw [List.forall_mem_map] at hmax
  simp only [fitsAt, decodable_arr, nesting_arr, List.all_eq_true, ← Nat.add_assoc, hmax,
    ← forall₂_and]

theorem fitsAt_obj {depth : ℕ} (hdepth : depth + 1 ≤ MAX_ARG_NESTING)
    (ms : List (List StrPart × JsonText)) :
    fitsAt depth (.obj ms) ↔ ∀ m ∈ ms, (decodeParts m.1).isSome ∧ fitsAt (depth + 1) m.2 := by
  have hmax := foldr_max_le_iff hdepth (ms.map fun m => m.2.nesting)
  rw [List.forall_mem_map] at hmax
  simp only [fitsAt, decodable_obj, nesting_obj, List.all_eq_true, ← Nat.add_assoc, hmax,
    ← forall₂_and, Bool.and_eq_true, and_assoc]

namespace TreeScanner

variable {β : Type} (S : TreeScanner β)

theorem scan_dull {cs : List Char} (hcs : ∀ c ∈ cs, isDull c = true) (depth : ℕ)
    (rest : List Char) : S.scan depth (cs ++ rest) = S.scan depth rest := by
  induction cs with
  | nil => rfl
  | cons c cs ih =>
    rw [List.cons_append, S.dull (hcs c List.mem_cons_self)]
    exact ih fun d hd => hcs d (List.mem_cons_of_mem c hd)

end TreeScanner

theorem isDull_of_isWs {c : Char} (hc : isWs c = true) : isDull c = true := by
  simp only [isWs, Bool.or_eq_true, beq_iff_eq] at hc
  rcases hc with ((rfl | rfl) | rfl) | rfl <;> rfl

theorem isDull_of_isDigit {c : Char} (hc : c.isDigit = true) : isDull c = true := by
  have hne : ∀ d : Char, d.isDigit = false → c ≠ d := by
    rintro d hd rfl
    rw [hc] at hd
    cases hd
  simp [isDull, hne '\\' rfl, hne '"' rfl, hne '[' rfl, hne '\x7b' rfl, hne ']' rfl, hne '\x7d' rfl]

theorem isDull_of_mem_numberChars (n : JsonNumber) : ∀ c ∈ numberChars n, isDull c = true :=
  forall_mem_numberChars (fun _ => isDull_of_isDigit) ⟨rfl, rfl, rfl, rfl, rfl⟩ n

namespace TreeScanner

variable {β : Type} (S : TreeScanner β)

theorem scan_ws {ws : List Char} (hws : IsWs ws) (depth : ℕ) (rest : List Char) :
    S.scan depth (ws ++ rest) = S.scan depth rest :=
  S.scan_dull (fun c hc => isDull_of_isWs (hws c hc)) depth rest

/-- **Items of a sequence**: the scan goes on after the bracket if every item fits. -/
theorem scan_tailChars {ι : Type} {pr : ι → List Char} (ok : ι → Prop) [DecidablePred ok]
    {close : Char} (hclose : isClose close = true) {depth : ℕ} {xs : List ι}
    (hxs : ∀ x ∈ xs, ∀ rest, S.scan (depth + 1) (pr x ++ rest) =
      if ok x then S.scan (depth + 1) rest else S.refuse) (rest : List Char) :
    S.scan (depth + 1) (tailChars close (xs.map pr) ++ rest) =
      if ∀ x ∈ xs, ok x then S.scan depth rest else S.refuse := by
  induction xs with
  | nil => simpa [tailChars] using S.closing hclose depth rest
  | cons x xs ih =>
    have hchars : tailChars close ((x :: xs).map pr) ++ rest =
        ',' :: (pr x ++ (tailChars close (xs.map pr) ++ rest)) := by
      simp [tailChars]
    rw [hchars, S.dull rfl, hxs x List.mem_cons_self,
      ih fun y hy => hxs y (List.mem_cons_of_mem x hy)]
    simp only [List.forall_mem_cons, ite_and]

theorem scan_seqChars {ι : Type} {pr : ι → List Char} (ok : ι → Prop) [DecidablePred ok]
    {close : Char} (hclose : isClose close = true) {gap : List Char} (hgap : IsWs gap) {depth : ℕ}
    {xs : List ι} (hxs : ∀ x ∈ xs, ∀ rest, S.scan (depth + 1) (pr x ++ rest) =
      if ok x then S.scan (depth + 1) rest else S.refuse) (rest : List Char) :
    S.scan (depth + 1) (seqChars close gap (xs.map pr) ++ rest) =
      if ∀ x ∈ xs, ok x then S.scan depth rest else S.refuse := by
  cases xs with
  | nil =>
    have hchars : seqChars close gap (([] : List ι).map pr) ++ rest = gap ++ close :: rest := by
      simp [seqChars]
    rw [hchars, S.scan_ws hgap, S.closing hclose]
    simp
  | cons x xs =>
    have hchars : seqChars close gap ((x :: xs).map pr) ++ rest =
        pr x ++ (tailChars close (xs.map pr) ++ rest) := by
      simp [seqChars]
    rw [hchars, hxs x List.mem_cons_self,
      S.scan_tailChars ok hclose fun y hy => hxs y (List.mem_cons_of_mem x hy)]
    simp only [List.forall_mem_cons, ite_and]

/-- **The scan goes on after a text exactly when a tree parse accepts it at that depth.** -/
theorem scan_spells {text : List Char} {t : JsonText} (h : Spells text t) {depth : ℕ}
    (hdepth : depth ≤ MAX_ARG_NESTING) (rest : List Char) :
    S.scan depth (text ++ rest) = if fitsAt depth t then S.scan depth rest else S.refuse := by
  have hflat : ∀ {t}, decodable t = true → nesting t = 0 → ∀ {depth}, depth ≤ MAX_ARG_NESTING →
      fitsAt depth t := by
    intro t hdec hnest depth hdepth
    exact ⟨hdec, by omega⟩
  induction h generalizing depth rest with
  | @ws c cs t hc h ih =>
    rw [List.cons_append, S.dull (isDull_of_isWs hc)]
    exact ih hdepth rest
  | null =>
    rw [if_pos (hflat rfl rfl hdepth)]
    exact S.scan_dull (List.all_eq_true.1 (by decide)) depth rest
  | bool b =>
    rw [if_pos (hflat rfl rfl hdepth)]
    exact S.scan_dull (by cases b <;> exact List.all_eq_true.1 (by decide)) depth rest
  | num n =>
    rw [if_pos (hflat rfl rfl hdepth)]
    exact S.scan_dull (isDull_of_mem_numberChars n) depth rest
  | str ps =>
    have hfits : fitsAt depth (.str ps) ↔ (decodeParts ps).isSome = true := by
      constructor
      · exact fun h => h.1
      · exact fun h => hflat (t := .str ps) h rfl hdepth
    rw [List.cons_append, S.string, if_congr hfits rfl rfl]
  | @arr gap hgap items hgaps h ih =>
    rw [List.cons_append, S.opening (Or.inl rfl)]
    by_cases hdeep : MAX_ARG_NESTING < depth + 1
    · have hno : ¬ fitsAt depth (.arr (items.map fun i => i.1.2)) := by
        rintro ⟨-, hle⟩
        rw [nesting_arr] at hle
        omega
      rw [if_pos hdeep, if_neg hno]
    · rw [if_neg hdeep, S.scan_seqChars (fun i => fitsAt (depth + 1) i.1.2) rfl hgap]
      · refine if_congr ?_ rfl rfl
        rw [fitsAt_arr (not_lt.1 hdeep), List.forall_mem_map]
      · intro i hi rest
        rw [List.append_assoc, ih i hi (not_lt.1 hdeep), S.scan_ws (hgaps i hi)]
  | @obj gap hgap items hgaps hws h ih =>
    rw [List.cons_append, S.opening (Or.inr rfl)]
    by_cases hdeep : MAX_ARG_NESTING < depth + 1
    · have hno : ¬ fitsAt depth (.obj (items.map fun i => (i.1.key, i.1.tree))) := by
        rintro ⟨-, hle⟩
        rw [nesting_obj] at hle
        omega
      rw [if_pos hdeep, if_neg hno]
    · rw [if_neg hdeep, S.scan_seqChars
        (fun i => (decodeParts i.1.key).isSome = true ∧ fitsAt (depth + 1) i.1.tree) rfl hgap]
      · refine if_congr ?_ rfl rfl
        rw [fitsAt_obj (not_lt.1 hdeep), List.forall_mem_map]
      · intro i hi rest
        have hchars : i.1.chars ++ i.2 ++ rest = i.1.before ++ ('"' :: (partsChars i.1.key ++
            (i.1.mid ++ (':' :: (i.1.text ++ (i.2 ++ rest)))))) := by
          simp [MemberText.chars]
        rw [hchars, S.scan_ws (hws i hi).1, S.string, S.scan_ws (hws i hi).2, S.dull rfl,
          ih i hi (not_lt.1 hdeep), S.scan_ws (hgaps i hi), ite_and]

end TreeScanner

/-! ### The scan of the worker -/

theorem treeScan_cons {x : Char} (hx : x ≠ '\\') (depth : ℕ) (inStr : Bool) (rest : List Char) :
    treeScan depth inStr (x :: rest) =
      if inStr then treeScan depth (x != '"') rest
      else if x == '"' then treeScan depth true rest
      else if x == '[' || x == '\x7b' then
        if MAX_ARG_NESTING < depth + 1 then false else treeScan (depth + 1) false rest
      else if x == ']' || x == '\x7d' then treeScan (depth - 1) false rest
      else treeScan depth false rest := by
  rw [treeScan.eq_def]
  split
  · next heq => cases heq
  · next heq => exact absurd (List.cons.inj heq).1 hx
  · next heq =>
    cases heq
    simp [hx]

theorem treeScan_escape {c : Char} (hc : c ≠ 'u') (depth : ℕ) (rest : List Char) :
    treeScan depth true ('\\' :: c :: rest) = treeScan depth true rest := by
  rw [treeScan.eq_def]
  split
  · next heq => cases heq
  · next heq => exact absurd (List.cons.inj (List.cons.inj heq).2).1 hc
  · next heq =>
    cases heq
    rfl

/-- A string is passed over if it denotes one, and refused otherwise. -/
theorem treeScan_partsChars (ps : List StrPart) (depth : ℕ) (rest : List Char) :
    treeScan depth true (partsChars ps ++ rest) =
      if (decodeParts ps).isSome then treeScan depth false rest else false := by
  -- the cases of `decodeParts`: a pair of surrogates is skipped in one step
  induction ps using decodeParts.induct with
  | case1 => exact treeScan_cons (by decide) depth true rest
  | case2 c h ps ih =>
    have hb : c ≠ '\\' := by rintro rfl; cases h
    have hq : c ≠ '"' := by rintro rfl; cases h
    have hbne : (c != '"') = true := by simpa using hq
    have hchars : partsChars (.plain c h :: ps) ++ rest = c :: (partsChars ps ++ rest) := rfl
    rw [hchars, treeScan_cons hb, if_pos rfl, hbne, ih, decodeParts, Option.isSome_map]
  | case3 c h ps ih =>
    obtain ⟨c', hc'⟩ := Option.isSome_iff_exists.1 h
    have hu : c ≠ 'u' := by rintro rfl; cases h
    have hchars : partsChars (.escape c h :: ps) ++ rest = '\\' :: c :: (partsChars ps ++ rest) := rfl
    rw [hchars, treeScan_escape hu, ih, decodeParts, hc', Option.bind_some, Option.isSome_map]
  | case4 a b c d h ps ih2 ih1 =>
    obtain ⟨u, hu⟩ := Option.isSome_iff_exists.1 h
    have hchars : partsChars (.unicode a b c d h :: ps) ++ rest =
        '\\' :: 'u' :: a :: b :: c :: d :: (partsChars ps ++ rest) := rfl
    rw [hchars, treeScan.eq_def, decodeParts]
    simp only [hu, Option.bind_some, if_true]
    by_cases htrail : isTrail u = true
    · simp [htrail]
    by_cases hlead : isLead u = true
    · simp only [htrail, hlead, if_true, Bool.false_eq_true, if_false]
      -- the look-ahead: the next part, or the end of the string
      cases ps with
      | nil => rfl
      | cons p ps =>
        cases p with
        | plain c' h' =>
          have hb : c' ≠ '\\' := by rintro rfl; cases h'
          split
          · next heq => exact absurd (List.cons.inj heq).1 hb
          · rfl
        | escape c' h' =>
          have hu' : c' ≠ 'u' := by rintro rfl; cases h'
          split
          · next heq => exact absurd (List.cons.inj (List.cons.inj heq).2).1 hu'
          · rfl
        | unicode a' b' c' d' h' =>
          obtain ⟨u', hu'⟩ := Option.isSome_iff_exists.1 h'
          by_cases htrail' : isTrail u' = true
          · simp [partsChars, partChars, hu', htrail', ih2]
          · simp [partsChars, partChars, hu', htrail']
    · simp [htrail, hlead, ih1]

/-- The scan of the worker, outside strings. -/
def treeScanner : TreeScanner Bool where
  scan depth cs := treeScan depth false cs
  refuse := false
  dull := by
    intro c hc depth rest
    simp only [isDull, Bool.and_eq_true, bne_iff_ne] at hc
    obtain ⟨⟨⟨⟨⟨h1, h2⟩, h3⟩, h4⟩, h5⟩, h6⟩ := hc
    rw [treeScan_cons h1]
    simp [h2, h3, h4, h5, h6]
  opening := by
    rintro c (rfl | rfl) depth rest <;> exact treeScan_cons (by decide) depth false rest
  closing := by
    intro c hc depth rest
    simp only [isClose, Bool.or_eq_true, beq_iff_eq] at hc
    rcases hc with rfl | rfl <;> exact treeScan_cons (by decide) (depth + 1) false rest
  string := by
    intro ps depth rest
    rw [treeScan_cons (by decide)]
    exact treeScan_partsChars ps depth rest

/-- Without an escape, and with few brackets, nothing is refused. -/
theorem treeScan_of_few {cs : List Char} (hescape : '\\' ∉ cs) {depth : ℕ} {inStr : Bool}
    (hfew : depth + cs.countP (fun x => x == '[' || x == '\x7b') ≤ MAX_ARG_NESTING) :
    treeScan depth inStr cs = true := by
  induction cs generalizing depth inStr with
  | nil => rfl
  | cons c cs ih =>
    rw [List.mem_cons, not_or] at hescape
    rw [List.countP_cons] at hfew
    rw [treeScan_cons (Ne.symm hescape.1)]
    split_ifs with hstr hquote hopen hdeep hclose
    · exact ih hescape.2 (by omega)
    · exact ih hescape.2 (by omega)
    · rw [if_pos hopen] at hfew
      omega
    · rw [if_pos hopen] at hfew
      exact ih hescape.2 (by omega)
    · exact ih hescape.2 (by omega)
    · exact ih hescape.2 (by omega)

/-- **`parses_as_tree` on a JSON text**: it is not nested too deep and its strings denote strings. -/
theorem parsesAsTree_of_spells {text : List Char} {t : JsonText} (h : Spells text t) :
    parsesAsTree (String.ofList text) = decide (fitsAt 0 t) := by
  have hscan : treeScan 0 false text = decide (fitsAt 0 t) := by
    have hspells := treeScanner.scan_spells h (Nat.zero_le _) []
    rw [List.append_nil] at hspells
    refine hspells.trans ?_
    by_cases hfits : fitsAt 0 t
    · rw [if_pos hfits, decide_eq_true hfits]
      rfl
    · rw [if_neg hfits, decide_eq_false hfits]
      rfl
  unfold parsesAsTree
  simp only [String.toList_ofList]
  split_ifs with hfast
  · rw [← hscan]
    simp only [Bool.and_eq_true, decide_eq_true_eq, Bool.not_eq_true',
      List.contains_eq_mem, decide_eq_false_iff_not] at hfast
    exact (treeScan_of_few hfast.2 (by omega)).symm
  · exact hscan

end Cauli
