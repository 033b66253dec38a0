import Mathlib.Data.List.DropRight
import Mathlib.Tactic.SplitIfs
import Cauli.Lib.JsonToken

/-!
# JSON texts

`JsonText` is the syntax tree of a text without its white space. `parseValue` reads a tree from the
front of a text, with white space between the tokens.

* `JsonText.fold`: recursion over a tree, `JsonText.induct`: induction over it;
* `JsonText.chars`: the compact text of a tree, `JsonText.nesting`: its depth in brackets,
  `JsonText.decodable`: every string of it denotes one;
* `parseSeq`: a bracketed sequence of items, whatever reads an item;
* `parseValue`, `parseMember`, `parseObject`: the reader. A member keeps the raw text of its value;
* `Spells`: a text, white space included, and the tree it stands for;
* `parseValue_of_spells`, `exists_of_parseValue`: the reader accepts exactly what is spelled;
* `ObjectText`, `parseObject_chars`, `exists_of_parseObject`: what is read as an object;
* `parseObject_items`, `spells_of_parseObject`: an object is read as its members, each with the text
  its value is spelled by;
* `Spells.map`: other white space between the tokens spells the same tree.
-/

/-- The syntax tree of a JSON text. -/
inductive JsonText
  | null
  | bool (b : Bool)
  | num (n : JsonNumber)
  | str (parts : List StrPart)
  | arr (elems : List JsonText)
  | obj (members : List (List StrPart × JsonText))

namespace JsonText

open JsonToken

/-! ### Recursion over trees -/

section Fold

variable {β : Type} (null : β) (bool : Bool → β) (num : JsonNumber → β) (str : List StrPart → β)
  (arr : List β → β) (obj : List (List StrPart × β) → β)

mutual

/-- Recursion over a tree, from what is done at each kind of node. -/
def fold : JsonText → β
  | .null => null
  | .bool b => bool b
  | .num n => num n
  | .str ps => str ps
  | .arr elems => arr (foldElems elems)
  | .obj members => obj (foldMembers members)

/-- `fold` on each element. -/
def foldElems : List JsonText → List β
  | [] => []
  | t :: ts => fold t :: foldElems ts

/-- `fold` on the value of each member. -/
def foldMembers : List (List StrPart × JsonText) → List (List StrPart × β)
  | [] => []
  | (k, t) :: ms => (k, fold t) :: foldMembers ms

end

theorem foldElems_eq_map (ts : List JsonText) :
    foldElems null bool num str arr obj ts = ts.map (fold null bool num str arr obj) := by
  induction ts with
  | nil => rfl
  | cons t ts ih => rw [foldElems, ih, List.map_cons]

theorem foldMembers_eq_map (ms : List (List StrPart × JsonText)) :
    foldMembers null bool num str arr obj ms =
      ms.map fun m => (m.1, fold null bool num str arr obj m.2) := by
  induction ms with
  | nil => rfl
  | cons m ms ih => rw [foldMembers, ih, List.map_cons]

end Fold

/-- Induction over trees. -/
theorem induct {P : JsonText → Prop} (hnull : P .null) (hbool : ∀ b, P (.bool b))
    (hnum : ∀ n, P (.num n)) (hstr : ∀ ps, P (.str ps))
    (harr : ∀ ts, (∀ t ∈ ts, P t) → P (.arr ts))
    (hobj : ∀ ms : List (List StrPart × JsonText), (∀ m ∈ ms, P m.2) → P (.obj ms)) :
    ∀ t, P t
  | .null => hnull
  | .bool b => hbool b
  | .num n => hnum n
  | .str ps => hstr ps
  | .arr ts => harr ts fun t _ => induct hnull hbool hnum hstr harr hobj t
  | .obj ms => hobj ms fun m _ => induct hnull hbool hnum hstr harr hobj m.2
termination_by t => sizeOf t
decreasing_by
  · have := List.sizeOf_lt_of_mem ‹t ∈ ts›
    simp only [JsonText.arr.sizeOf_spec]
    omega
  · obtain ⟨k, t⟩ := m
    have := List.sizeOf_lt_of_mem ‹(k, t) ∈ ms›
    simp only [JsonText.obj.sizeOf_spec, Prod.mk.sizeOf_spec] at *
    omega

/-! ### Compact texts -/

/-- Items after the first, each with its comma, and the closing bracket. -/
def tailChars (close : Char) (xs : List (List Char)) : List Char :=
  xs.foldr (fun x cs => ',' :: (x ++ cs)) [close]

/-- A bracketed sequence after its opening bracket; an empty one may hold white space. -/
def seqChars (close : Char) (gap : List Char) : List (List Char) → List Char
  | [] => gap ++ [close]
  | x :: xs => x ++ tailChars close xs

/-- A member of an object. -/
def memberChars (k : List StrPart) (value : List Char) : List Char :=
  '"' :: (partsChars k ++ ':' :: value)

/-- The compact text of a tree. -/
def chars : JsonText → List Char :=
  fold ['n', 'u', 'l', 'l']
    (fun b => if b then ['t', 'r', 'u', 'e'] else ['f', 'a', 'l', 's', 'e'])
    numberChars (fun ps => '"' :: partsChars ps) (fun xs => '[' :: seqChars ']' [] xs)
    (fun ms => '\x7b' :: seqChars '\x7d' [] (ms.map fun m => memberChars m.1 m.2))

/-- How deep the brackets of a tree go. -/
def nesting : JsonText → ℕ :=
  fold 0 (fun _ => 0) (fun _ => 0) (fun _ => 0) (fun ns => 1 + ns.foldr max 0)
    (fun ms => 1 + (ms.map Prod.snd).foldr max 0)

/-- Every string of the tree denotes one. -/
def decodable : JsonText → Bool :=
  fold true (fun _ => true) (fun _ => true) (fun ps => (decodeParts ps).isSome) (fun bs => bs.all id)
    (fun ms => ms.all fun m => (decodeParts m.1).isSome && m.2)

@[simp] theorem chars_null : chars .null = ['n', 'u', 'l', 'l'] := rfl

@[simp] theorem chars_bool (b : Bool) :
    chars (.bool b) = if b then ['t', 'r', 'u', 'e'] else ['f', 'a', 'l', 's', 'e'] := rfl

@[simp] theorem chars_num (n : JsonNumber) : chars (.num n) = numberChars n := rfl

@[simp] theorem chars_str (ps : List StrPart) : chars (.str ps) = '"' :: partsChars ps := rfl

@[simp] theorem chars_arr (ts : List JsonText) :
    chars (.arr ts) = '[' :: seqChars ']' [] (ts.map chars) := by
  rw [chars, fold, foldElems_eq_map]

@[simp] theorem chars_obj (ms : List (List StrPart × JsonText)) :
    chars (.obj ms) = '\x7b' :: seqChars '\x7d' [] (ms.map fun m => memberChars m.1 m.2.chars) := by
  rw [chars, fold, foldMembers_eq_map, List.map_map]
  rfl

@[simp] theorem nesting_arr (ts : List JsonText) :
    nesting (.arr ts) = 1 + (ts.map nesting).foldr max 0 := by
  rw [nesting, fold, foldElems_eq_map]

@[simp] theorem nesting_obj (ms : List (List StrPart × JsonText)) :
    nesting (.obj ms) = 1 + (ms.map fun m => m.2.nesting).foldr max 0 := by
  rw [nesting, fold, foldMembers_eq_map, List.map_map]
  rfl

@[simp] theorem decodable_arr (ts : List JsonText) :
    decodable (.arr ts) = ts.all decodable := by
  rw [decodable, fold, foldElems_eq_map, List.all_map]
  rfl

@[simp] theorem decodable_obj (ms : List (List StrPart × JsonText)) :
    decodable (.obj ms) = ms.all fun m => (decodeParts m.1).isSome && m.2.decodable := by
  rw [decodable, fold, foldMembers_eq_map, List.all_map]
  rfl

/-! ### The reader -/

/-- White space between tokens. -/
def isWs (c : Char) : Bool := c == ' ' || c == '\n' || c == '\t' || c == '\r'

/-- A text from its next token on. -/
def skipWs (cs : List Char) : List Char := cs.dropWhile isWs

section Seq

variable {α : Type} (item : List Char → Option (α × List Char)) (close : Char)

/-- The items of a sequence after the first, `n` of them at most. -/
def parseTail : ℕ → List Char → Option (List α × List Char)
  | 0, _ => none
  | n + 1, cs =>
    if (skipWs cs).head? = some close then some ([], (skipWs cs).tail)
    else if (skipWs cs).head? = some ',' then
      (item (skipWs cs).tail).bind fun p => (parseTail n p.2).map fun q => (p.1 :: q.1, q.2)
    else none

/-- A bracketed sequence after its opening bracket. -/
def parseSeq (n : ℕ) (cs : List Char) : Option (List α × List Char) :=
  if (skipWs cs).head? = some close then some ([], (skipWs cs).tail)
  else (item cs).bind fun p => (parseTail item close n p.2).map fun q => (p.1 :: q.1, q.2)

end Seq

/-- A member of an object, with the text of its value as it stands. -/
structure Member where
  key : List StrPart
  value : JsonText
  raw : List Char

/-- A member, with the given reader for its value. -/
def parseMember (value : List Char → Option (JsonText × List Char)) (cs : List Char) :
    Option (Member × List Char) :=
  if (skipWs cs).head? = some '"' then
    (parseParts (skipWs cs).tail).bind fun k =>
      if (skipWs k.2).head? = some ':' then
        let from_ := skipWs (skipWs k.2).tail
        (value from_).map fun v => (⟨k.1, v.1, from_.take (from_.length - v.2.length)⟩, v.2)
      else none
  else none

/-- A value from the front of a text, with at most `n` brackets inside each other. -/
def parseValue : ℕ → List Char → Option (JsonText × List Char)
  | 0, _ => none
  | n + 1, cs =>
    let cs := skipWs cs
    if cs.head? = some '"' then (parseParts cs.tail).map fun p => (.str p.1, p.2)
    else if cs.head? = some '[' then
      (parseSeq (parseValue n) ']' n cs.tail).map fun p => (.arr p.1, p.2)
    else if cs.head? = some '\x7b' then
      (parseSeq (parseMember (parseValue n)) '\x7d' n cs.tail).map fun p =>
        (.obj (p.1.map fun m => (m.key, m.value)), p.2)
    else if cs.take 4 = ['n', 'u', 'l', 'l'] then some (.null, cs.drop 4)
    else if cs.take 4 = ['t', 'r', 'u', 'e'] then some (.bool true, cs.drop 4)
    else if cs.take 5 = ['f', 'a', 'l', 's', 'e'] then some (.bool false, cs.drop 5)
    else (parseNumber cs).map fun p => (.num p.1, p.2)

/-- The members of a text that is one object. -/
def parseObject (cs : List Char) : Option (List Member) :=
  let from_ := skipWs cs
  if from_.head? = some '\x7b' then
    (parseSeq (parseMember (parseValue from_.length)) '\x7d' from_.length from_.tail).bind fun p =>
      if skipWs p.2 = [] then some p.1 else none
  else none

/-! ### Texts with white space -/

/-- White space only. -/
def IsWs (ws : List Char) : Prop := ∀ c ∈ ws, isWs c = true

/-- How a member stands in a text: white space before its key and before its colon, and the text of
its value. -/
structure MemberText where
  before : List Char
  key : List StrPart
  mid : List Char
  text : List Char
  tree : JsonText

/-- The characters of a member. -/
def MemberText.chars (m : MemberText) : List Char :=
  m.before ++ '"' :: (partsChars m.key ++ (m.mid ++ ':' :: m.text))

/-- The member that is read. -/
def MemberText.member (m : MemberText) : Member := ⟨m.key, m.tree, skipWs m.text⟩

/-- A text spells a tree: white space may stand before every token, and after an item of a
sequence. -/
inductive Spells : List Char → JsonText → Prop
  | ws {c : Char} {cs : List Char} {t : JsonText} (hc : isWs c = true) (h : Spells cs t) :
      Spells (c :: cs) t
  | null : Spells (chars .null) .null
  | bool (b : Bool) : Spells (chars (.bool b)) (.bool b)
  | num (n : JsonNumber) : Spells (numberChars n) (.num n)
  | str (ps : List StrPart) : Spells ('"' :: partsChars ps) (.str ps)
  | arr {gap : List Char} (hgap : IsWs gap) (items : List ((List Char × JsonText) × List Char))
      (hgaps : ∀ i ∈ items, IsWs i.2) (h : ∀ i ∈ items, Spells i.1.1 i.1.2) :
      Spells ('[' :: seqChars ']' gap (items.map fun i => i.1.1 ++ i.2))
        (.arr (items.map fun i => i.1.2))
  | obj {gap : List Char} (hgap : IsWs gap) (items : List (MemberText × List Char))
      (hgaps : ∀ i ∈ items, IsWs i.2)
      (hws : ∀ i ∈ items, IsWs i.1.before ∧ IsWs i.1.mid) (h : ∀ i ∈ items, Spells i.1.text i.1.tree) :
      Spells ('\x7b' :: seqChars '\x7d' gap (items.map fun i => i.1.chars ++ i.2))
        (.obj (items.map fun i => (i.1.key, i.1.tree)))

/-- A compact text spells its tree. -/
theorem spells_chars (t : JsonText) : Spells t.chars t := by
  induction t using JsonText.induct with
  | hnull => exact .null
  | hbool b => exact .bool b
  | hnum n => exact .num n
  | hstr ps => exact .str ps
  | harr ts ih =>
    have hnil : IsWs [] := by simp [IsWs]
    have h := Spells.arr hnil (ts.map fun t => ((t.chars, t), []))
      (by simp [IsWs]) (by simpa using ih)
    simpa [Function.comp_def] using h
  | hobj ms ih =>
    have hnil : IsWs [] := by simp [IsWs]
    have h := Spells.obj hnil
      (ms.map fun m => (⟨[], m.1, [], m.2.chars, m.2⟩, []))
      (List.forall_mem_map.2 fun m _ => hnil) (List.forall_mem_map.2 fun m _ => ⟨hnil, hnil⟩)
      (List.forall_mem_map.2 ih)
    simpa [Function.comp_def, MemberText.chars, memberChars] using h

/-! ### Reading back -/

theorem skipWs_append {ws : List Char} (hws : IsWs ws) (cs : List Char) :
    skipWs (ws ++ cs) = skipWs cs := List.dropWhile_append_of_pos hws

theorem skipWs_cons {c : Char} (hc : isWs c = false) (cs : List Char) :
    skipWs (c :: cs) = c :: cs := by
  simp [skipWs, hc]

theorem exists_skipWs (cs : List Char) : ∃ ws, IsWs ws ∧ cs = ws ++ skipWs cs :=
  ⟨cs.takeWhile isWs, fun _ hc => List.mem_takeWhile_imp hc, List.takeWhile_append_dropWhile.symm⟩

/-- A closing bracket. -/
def isClose (c : Char) : Bool := c == ']' || c == '\x7d'

theorem isWs_of_isClose {c : Char} (hc : isClose c = true) : isWs c = false := by
  simp only [isClose, Bool.or_eq_true, beq_iff_eq] at hc
  rcases hc with rfl | rfl <;> rfl

/-- A character that a value can start with, and nothing else of a text. -/
def isStart (c : Char) : Bool :=
  !isWs c && c != ',' && c != ':' && c != ']' && c != '\x7d'

theorem isWs_of_isStart {c : Char} (hc : isStart c = true) : isWs c = false := by
  simp only [isStart, Bool.and_eq_true, Bool.not_eq_eq_eq_not, Bool.not_true] at hc
  exact hc.1.1.1.1

theorem isStart_of_number {c : Char} (h : c.isDigit = true ∨ c = '-') : isStart c = true := by
  have hdigit : c.isDigit = true → isStart c = true := by
    intro hd
    have hne : ∀ d : Char, d.isDigit = false → c ≠ d := by
      rintro d hd' rfl
      rw [hd] at hd'
      cases hd'
    simp [isStart, isWs, hne ' ' rfl, hne '\n' rfl, hne '\t' rfl, hne '\r' rfl, hne ',' rfl,
      hne ':' rfl, hne ']' rfl, hne '\x7d' rfl]
  rcases h with h | rfl
  · exact hdigit h
  · rfl

theorem exists_numberChars_eq (n : JsonNumber) :
    ∃ c cs, isStart c = true ∧ numberChars n = c :: cs := by
  obtain ⟨c, hc, hnum⟩ := head?_numberChars n []
  rw [List.append_nil] at hc
  exact ⟨c, _, isStart_of_number hnum, cons_tail_of_head? hc⟩

/-- After its white space a text starts with a character of its value. -/
theorem Spells.skipWs_eq {text : List Char} {t : JsonText} (h : Spells text t) :
    ∃ c cs, isStart c = true ∧ skipWs text = c :: cs ∧
      ∀ rest, skipWs (text ++ rest) = skipWs text ++ rest := by
  have hstart : ∀ {c cs}, isStart c = true → ∃ d ds, isStart d = true ∧
      skipWs (c :: cs) = d :: ds ∧ ∀ rest, skipWs (c :: cs ++ rest) = skipWs (c :: cs) ++ rest := by
    intro c cs hc
    have hws := isWs_of_isStart hc
    refine ⟨c, cs, hc, skipWs_cons hws cs, fun rest => ?_⟩
    rw [skipWs_cons hws, List.cons_append, skipWs_cons hws]
  induction h with
  | @ws c cs t hc h ih =>
    have hskip : ∀ ds, skipWs (c :: ds) = skipWs ds := fun ds => by simp [skipWs, hc]
    obtain ⟨d, ds, hd, heq, hrest⟩ := ih
    exact ⟨d, ds, hd, (hskip cs).trans heq, fun rest => by
      rw [List.cons_append, hskip, hskip, hrest]⟩
  | null => exact hstart rfl
  | bool b => cases b <;> exact hstart rfl
  | num n =>
    obtain ⟨c, cs, hc, hn⟩ := exists_numberChars_eq n
    rw [hn]
    exact hstart hc
  | str ps => exact hstart rfl
  | arr hgap items hgaps h ih => exact hstart rfl
  | obj hgap items hgaps hws h ih => exact hstart rfl

/-- The value itself, without the white space before it. -/
theorem Spells.skipWs {text : List Char} {t : JsonText} (h : Spells text t) :
    Spells (skipWs text) t := by
  induction h with
  | @ws c cs t hc h ih =>
    have hskip : JsonText.skipWs (c :: cs) = JsonText.skipWs cs := by simp [JsonText.skipWs, hc]
    rw [hskip]
    exact ih
  | null => exact .null
  | bool b =>
    cases b with
    | false => exact .bool false
    | true => exact .bool true
  | num n =>
    obtain ⟨c, cs, hc, hn⟩ := exists_numberChars_eq n
    have hskip := skipWs_cons (isWs_of_isStart hc) cs
    rw [← hn] at hskip
    rw [hskip]
    exact .num n
  | str ps => exact .str ps
  | arr hgap items hgaps h ih => exact .arr hgap items hgaps h
  | obj hgap items hgaps hws h ih => exact .obj hgap items hgaps hws h

theorem skipWs_chars (t : JsonText) : skipWs t.chars = t.chars := by
  have hstart : ∀ {c cs}, isStart c = true → skipWs (c :: cs) = c :: cs := fun hc =>
    skipWs_cons (isWs_of_isStart hc) _
  cases t with
  | null => exact hstart rfl
  | bool b => cases b <;> exact hstart rfl
  | num n =>
    obtain ⟨c, cs, hc, hn⟩ := exists_numberChars_eq n
    rw [chars_num, hn]
    exact hstart hc
  | str ps => exact hstart rfl
  | arr ts => rw [chars_arr]; exact hstart rfl
  | obj ms => rw [chars_obj]; exact hstart rfl

theorem follows_cons {c : Char} (hc : (c == ',' || isClose c || isWs c) = true) (cs : List Char) :
    Follows (c :: cs) := by
  intro d hd
  obtain rfl : c = d := by simpa using hd
  simp only [isClose, isWs, Bool.or_eq_true, beq_iff_eq] at hc
  rcases hc with (rfl | rfl | rfl) | ((rfl | rfl) | rfl) | rfl <;> decide

theorem follows_append {ws rest : List Char} (hws : IsWs ws) (hrest : Follows rest) :
    Follows (ws ++ rest) := by
  cases ws with
  | nil => exact hrest
  | cons c ws => exact follows_cons (by simp [hws c List.mem_cons_self]) _

theorem follows_tailChars {close : Char} (hclose : isClose close = true) (xs : List (List Char))
    (rest : List Char) : Follows (tailChars close xs ++ rest) := by
  cases xs with
  | nil => exact follows_cons (by simp [hclose]) _
  | cons x xs => exact follows_cons (by simp) _

section Seq

variable {α ι : Type} (item : List Char → Option (α × List Char)) (close : Char)
  (pr : ι → List Char) (val : ι → α)

/-- **The items after the first are read back.** -/
theorem parseTail_tailChars (hclose : isClose close = true) {xs : List (ι × List Char)} {n : ℕ}
    (hn : xs.length < n) {gap : List Char} (hgap : IsWs gap) (rest : List Char)
    (hgaps : ∀ x ∈ xs, IsWs x.2)
    (hitem : ∀ x ∈ xs, ∀ rest, Follows rest → item (pr x.1 ++ rest) = some (val x.1, rest)) :
    parseTail item close n (gap ++ (tailChars close (xs.map fun x => pr x.1 ++ x.2) ++ rest)) =
      some (xs.map fun x => val x.1, rest) := by
  induction xs generalizing n gap with
  | nil =>
    obtain ⟨n, rfl⟩ := Nat.exists_eq_succ_of_ne_zero (show n ≠ 0 by rintro rfl; cases hn)
    have hskip : skipWs (close :: rest) = close :: rest := skipWs_cons (isWs_of_isClose hclose) rest
    simp [parseTail, tailChars, skipWs_append hgap, hskip]
  | cons x xs ih =>
    obtain ⟨n, rfl⟩ := Nat.exists_eq_succ_of_ne_zero (show n ≠ 0 by rintro rfl; cases hn)
    have hx := hitem x List.mem_cons_self _ (follows_append (hgaps x List.mem_cons_self)
      (follows_tailChars hclose (xs.map fun x => pr x.1 ++ x.2) rest))
    have hxs := ih (n := n) (by simpa using hn) (hgaps x List.mem_cons_self)
      (fun y hy => hgaps y (List.mem_cons_of_mem x hy))
      fun y hy => hitem y (List.mem_cons_of_mem x hy)
    have hcomma : close ≠ ',' := by rintro rfl; cases hclose
    have hchars : tailChars close ((x :: xs).map fun x => pr x.1 ++ x.2) ++ rest =
        ',' :: (pr x.1 ++ (x.2 ++ (tailChars close (xs.map fun x => pr x.1 ++ x.2) ++ rest))) := by
      simp [tailChars]
    have hskip := skipWs_cons (c := ',') rfl
      (pr x.1 ++ (x.2 ++ (tailChars close (xs.map fun x => pr x.1 ++ x.2) ++ rest)))
    rw [hchars, parseTail, skipWs_append hgap, hskip, List.head?_cons, List.tail_cons, hx,
      if_neg (by simpa using hcomma.symm), if_pos rfl, Option.bind_some, hxs]
    rfl

/-- **A bracketed sequence is read back.** -/
theorem parseSeq_seqChars (hclose : isClose close = true) {xs : List (ι × List Char)} {n : ℕ}
    (hn : xs.length ≤ n) {gap : List Char} (hgap : IsWs gap) (rest : List Char)
    (hgaps : ∀ x ∈ xs, IsWs x.2)
    (hstart : ∀ x ∈ xs, ∀ rest, ∃ c, (skipWs (pr x.1 ++ rest)).head? = some c ∧ isStart c = true)
    (hitem : ∀ x ∈ xs, ∀ rest, Follows rest → item (pr x.1 ++ rest) = some (val x.1, rest)) :
    parseSeq item close n (seqChars close gap (xs.map fun x => pr x.1 ++ x.2) ++ rest) =
      some (xs.map fun x => val x.1, rest) := by
  cases xs with
  | nil =>
    have hskip : skipWs (close :: rest) = close :: rest := skipWs_cons (isWs_of_isClose hclose) rest
    simp [parseSeq, seqChars, skipWs_append hgap, hskip]
  | cons x xs =>
    have hx := hitem x List.mem_cons_self _ (follows_append (hgaps x List.mem_cons_self)
      (follows_tailChars hclose (xs.map fun x => pr x.1 ++ x.2) rest))
    rw [List.length_cons] at hn
    have hxs := parseTail_tailChars item close pr val hclose (n := n) hn (hgaps x List.mem_cons_self) rest
      (fun y hy => hgaps y (List.mem_cons_of_mem x hy))
      fun y hy => hitem y (List.mem_cons_of_mem x hy)
    have hchars : seqChars close gap ((x :: xs).map fun x => pr x.1 ++ x.2) ++ rest =
        pr x.1 ++ (x.2 ++ (tailChars close (xs.map fun x => pr x.1 ++ x.2) ++ rest)) := by
      simp [seqChars]
    obtain ⟨c, hc, hcs⟩ := hstart x List.mem_cons_self
      (x.2 ++ (tailChars close (xs.map fun x => pr x.1 ++ x.2) ++ rest))
    have hne : c ≠ close := by
      rintro rfl
      simp only [isClose, Bool.or_eq_true, beq_iff_eq] at hclose
      rcases hclose with rfl | rfl <;> cases hcs
    rw [hchars, parseSeq, hc, if_neg (by simpa using hne), hx, Option.bind_some, hxs]
    rfl

/-- What `parseTail` reads are items, each after its comma. -/
theorem exists_of_parseTail {P : ι → Prop} {n : ℕ} {cs rest : List Char} {as : List α}
    (hitem : ∀ {cs a rest}, item cs = some (a, rest) → ∃ i, P i ∧ cs = pr i ++ rest ∧ val i = a)
    (h : parseTail item close n cs = some (as, rest)) :
    ∃ (gap : List Char) (xs : List (ι × List Char)), IsWs gap ∧ (∀ x ∈ xs, P x.1 ∧ IsWs x.2) ∧
      cs = gap ++ (tailChars close (xs.map fun x => pr x.1 ++ x.2) ++ rest) ∧
      as = xs.map fun x => val x.1 := by
  induction n generalizing cs as with
  | zero => cases h
  | succ n ih =>
    obtain ⟨gap, hgap, hcs⟩ := exists_skipWs cs
    rw [parseTail] at h
    split_ifs at h with hclose hcomma
    · cases h
      refine ⟨gap, [], hgap, by simp, ?_, rfl⟩
      rw [cons_tail_of_head? hclose] at hcs
      exact hcs
    · obtain ⟨p, hp, h⟩ := Option.bind_eq_some_iff.1 h
      obtain ⟨q, hq, heq⟩ := Option.map_eq_some_iff.1 h
      cases heq
      obtain ⟨i, hi, hpr, hval⟩ := hitem hp
      obtain ⟨gap', xs, hgap', hxs, hp2, hq1⟩ := ih hq
      refine ⟨gap, (i, gap') :: xs, hgap, ?_, ?_, ?_⟩
      · intro x hx
        rcases List.mem_cons.1 hx with rfl | hx
        · exact ⟨hi, hgap'⟩
        · exact hxs x hx
      · rw [cons_tail_of_head? hcomma, hpr, hp2] at hcs
        rw [hcs]
        simp [tailChars]
      · rw [hq1, ← hval]
        rfl

/-- What `parseSeq` reads is a bracketed sequence. -/
theorem exists_of_parseSeq {P : ι → Prop} {n : ℕ} {cs rest : List Char} {as : List α}
    (hitem : ∀ {cs a rest}, item cs = some (a, rest) → ∃ i, P i ∧ cs = pr i ++ rest ∧ val i = a)
    (h : parseSeq item close n cs = some (as, rest)) :
    ∃ (gap : List Char) (xs : List (ι × List Char)), IsWs gap ∧ (∀ x ∈ xs, P x.1 ∧ IsWs x.2) ∧
      cs = seqChars close gap (xs.map fun x => pr x.1 ++ x.2) ++ rest ∧
      as = xs.map fun x => val x.1 := by
  unfold parseSeq at h
  split_ifs at h with hclose
  · cases h
    obtain ⟨gap, hgap, hcs⟩ := exists_skipWs cs
    refine ⟨gap, [], hgap, by simp, ?_, rfl⟩
    rw [cons_tail_of_head? hclose] at hcs
    refine hcs.trans ?_
    simp [seqChars]
  · obtain ⟨p, hp, h⟩ := Option.bind_eq_some_iff.1 h
    obtain ⟨q, hq, heq⟩ := Option.map_eq_some_iff.1 h
    cases heq
    obtain ⟨i, hi, hpr, hval⟩ := hitem hp
    obtain ⟨gap', xs, hgap', hxs, hp2, hq1⟩ :=
      exists_of_parseTail item close pr val hitem hq
    refine ⟨[], (i, gap') :: xs, by simp [IsWs], ?_, ?_, ?_⟩
    · intro x hx
      rcases List.mem_cons.1 hx with rfl | hx
      · exact ⟨hi, hgap'⟩
      · exact hxs x hx
    · rw [hpr, hp2]
      simp [seqChars]
    · rw [hq1, ← hval]
      rfl

end Seq

theorem length_le_tailChars (close : Char) (xs : List (List Char)) :
    xs.length < (tailChars close xs).length ∧ ∀ x ∈ xs, x.length < (tailChars close xs).length := by
  induction xs with
  | nil => simp [tailChars]
  | cons x xs ih =>
    have hlen : (tailChars close (x :: xs)).length = x.length + (tailChars close xs).length + 1 := by
      simp [tailChars]
    refine ⟨by rw [hlen, List.length_cons]; omega, ?_⟩
    intro y hy
    rcases List.mem_cons.1 hy with rfl | hy
    · omega
    · have := ih.2 y hy
      omega

theorem length_le_seqChars (close : Char) (gap : List Char) (xs : List (List Char)) :
    xs.length ≤ (seqChars close gap xs).length ∧
      ∀ x ∈ xs, x.length ≤ (seqChars close gap xs).length := by
  cases xs with
  | nil => simp [seqChars]
  | cons x xs =>
    have hlen : (seqChars close gap (x :: xs)).length = x.length + (tailChars close xs).length := by
      simp [seqChars]
    obtain ⟨hcount, hitems⟩ := length_le_tailChars close xs
    refine ⟨by rw [hlen, List.length_cons]; omega, ?_⟩
    intro y hy
    rcases List.mem_cons.1 hy with rfl | hy
    · omega
    · have := hitems y hy
      omega

theorem MemberText.length_text_le (m : MemberText) : m.text.length ≤ m.chars.length := by
  simp only [MemberText.chars, List.length_append, List.length_cons]
  omega

theorem skipWs_memberChars {m : MemberText} (hws : IsWs m.before) (rest : List Char) :
    skipWs (m.chars ++ rest) = '"' :: (partsChars m.key ++ (m.mid ++ ':' :: (m.text ++ rest))) := by
  have hchars : m.chars ++ rest =
      m.before ++ '"' :: (partsChars m.key ++ (m.mid ++ ':' :: (m.text ++ rest))) := by
    simp [MemberText.chars]
  rw [hchars, skipWs_append hws, skipWs_cons rfl]

/-- **A member is read back, with its text.** -/
theorem parseMember_chars {value : List Char → Option (JsonText × List Char)} {m : MemberText}
    {rest : List Char} (hws : IsWs m.before ∧ IsWs m.mid) (hm : Spells m.text m.tree)
    (hvalue : value (skipWs m.text ++ rest) = some (m.tree, rest)) :
    parseMember value (m.chars ++ rest) = some (m.member, rest) := by
  obtain ⟨c, cs, hc, htext, hrest⟩ := hm.skipWs_eq
  have hcolon := skipWs_cons (c := ':') rfl (m.text ++ rest)
  have hraw : (skipWs m.text ++ rest).take ((skipWs m.text ++ rest).length - rest.length) =
      skipWs m.text := by
    simp
  rw [parseMember, skipWs_memberChars hws.1, List.head?_cons, if_pos rfl, List.tail_cons,
    parseParts_partsChars, Option.bind_some, skipWs_append hws.2, hcolon, List.head?_cons,
    if_pos rfl, List.tail_cons]
  simp only [hrest, hvalue, Option.map_some, hraw]
  rfl

theorem parseValue_cons_ws {c : Char} (hc : isWs c = true) (n : ℕ) (cs : List Char) :
    parseValue n (c :: cs) = parseValue n cs := by
  have hskip : skipWs (c :: cs) = skipWs cs := by simp [skipWs, hc]
  cases n with
  | zero => rfl
  | succ n => simp only [parseValue, hskip]

theorem parseValue_skipWs (n : ℕ) (cs : List Char) : parseValue n (skipWs cs) = parseValue n cs := by
  have hskip : skipWs (skipWs cs) = skipWs cs := List.dropWhile_idempotent _ _
  cases n with
  | zero => rfl
  | succ n => simp only [parseValue, hskip]

/-- The members of an object, when each of their values is read back. -/
theorem parseSeq_members {gap : List Char} (hgap : IsWs gap) {items : List (MemberText × List Char)}
    (hgaps : ∀ i ∈ items, IsWs i.2) (hws : ∀ i ∈ items, IsWs i.1.before ∧ IsWs i.1.mid)
    (h : ∀ i ∈ items, Spells i.1.text i.1.tree) {n : ℕ}
    (hn : (seqChars '\x7d' gap (items.map fun i => i.1.chars ++ i.2)).length ≤ n) (rest : List Char)
    (hvalue : ∀ i ∈ items, ∀ rest, i.1.text.length ≤ n → Follows rest →
      parseValue n (i.1.text ++ rest) = some (i.1.tree, rest)) :
    parseSeq (parseMember (parseValue n)) '\x7d' n
        (seqChars '\x7d' gap (items.map fun i => i.1.chars ++ i.2) ++ rest) =
      some (items.map fun i => i.1.member, rest) := by
  obtain ⟨hcount, hlen⟩ := length_le_seqChars '\x7d' gap (items.map fun i => i.1.chars ++ i.2)
  rw [List.length_map] at hcount
  refine parseSeq_seqChars (parseMember (parseValue n)) '\x7d' MemberText.chars MemberText.member rfl
    (hcount.trans hn) hgap rest hgaps (fun i hi rest => ?_) fun i hi rest hrest => ?_
  · rw [skipWs_memberChars (hws i hi).1]
    exact ⟨'"', rfl, rfl⟩
  · obtain ⟨c, cs, hc, heq, hskip⟩ := (h i hi).skipWs_eq
    have hchars := hlen _ (List.mem_map.2 ⟨i, hi, rfl⟩)
    have htext := i.1.length_text_le
    rw [List.length_append] at hchars
    apply parseMember_chars (hws i hi) (h i hi)
    rw [← hskip, parseValue_skipWs]
    exact hvalue i hi rest (by omega) hrest

/-- **A text is read back as the tree it spells.** -/
theorem parseValue_of_spells {text : List Char} {t : JsonText} (h : Spells text t) {n : ℕ}
    (hn : text.length ≤ n) {rest : List Char} (hrest : Follows rest) :
    parseValue n (text ++ rest) = some (t, rest) := by
  induction h generalizing n rest with
  | @ws c cs t hc h ih =>
    rw [List.cons_append, parseValue_cons_ws hc]
    exact ih (by rw [List.length_cons] at hn; omega) hrest
  | null =>
    obtain ⟨n, rfl⟩ := Nat.exists_eq_succ_of_ne_zero (show n ≠ 0 by rintro rfl; cases hn)
    simp [parseValue, skipWs_cons (c := 'n') rfl]
  | bool b =>
    cases b with
    | false =>
      obtain ⟨n, rfl⟩ := Nat.exists_eq_succ_of_ne_zero (show n ≠ 0 by rintro rfl; cases hn)
      simp [parseValue, skipWs_cons (c := 'f') rfl]
    | true =>
      obtain ⟨n, rfl⟩ := Nat.exists_eq_succ_of_ne_zero (show n ≠ 0 by rintro rfl; cases hn)
      simp [parseValue, skipWs_cons (c := 't') rfl]
  | num tok =>
    obtain ⟨d, hd, hnum⟩ := head?_numberChars tok rest
    have hskip : skipWs (numberChars tok ++ rest) = numberChars tok ++ rest := by
      rw [cons_tail_of_head? hd]
      exact skipWs_cons (isWs_of_isStart (isStart_of_number hnum)) _
    have hne : ∀ e : Char, e.isDigit = false → e ≠ '-' → d ≠ e := by
      rintro e he hminus rfl
      rcases hnum with hnum | rfl
      · rw [hnum] at he
        cases he
      · exact hminus rfl
    -- the text starts as no literal does
    have htake : ∀ k e es, e.isDigit = false → e ≠ '-' →
        (numberChars tok ++ rest).take (k + 1) ≠ e :: es := by
      intro k e es he hminus htake
      have hhead := congrArg List.head? htake
      rw [List.head?_take, if_neg (Nat.succ_ne_zero k), hd] at hhead
      exact hne e he hminus (by simpa using hhead)
    have hpos : n ≠ 0 := by
      rintro rfl
      obtain ⟨d', hd', -⟩ := head?_numberChars tok []
      rw [List.append_nil, List.eq_nil_of_length_eq_zero (Nat.le_zero.1 hn)] at hd'
      cases hd'
    obtain ⟨n, rfl⟩ := Nat.exists_eq_succ_of_ne_zero hpos
    simp only [parseValue, hskip, hd, Option.some.injEq]
    rw [if_neg (hne _ rfl (by decide)), if_neg (hne _ rfl (by decide)),
      if_neg (hne _ rfl (by decide)), if_neg (htake 3 _ _ rfl (by decide)),
      if_neg (htake 3 _ _ rfl (by decide)), if_neg (htake 4 _ _ rfl (by decide)),
      parseNumber_numberChars tok hrest]
    rfl
  | str ps =>
    obtain ⟨n, rfl⟩ := Nat.exists_eq_succ_of_ne_zero (show n ≠ 0 by rintro rfl; cases hn)
    simp [parseValue, skipWs_cons (c := '"') rfl, parseParts_partsChars]
  | @arr gap hgap items hgaps h ih =>
    obtain ⟨n, rfl⟩ := Nat.exists_eq_succ_of_ne_zero (show n ≠ 0 by rintro rfl; cases hn)
    rw [List.length_cons] at hn
    obtain ⟨hcount, hlen⟩ := length_le_seqChars ']' gap (items.map fun i => i.1.1 ++ i.2)
    rw [List.length_map] at hcount
    have hitems := parseSeq_seqChars (parseValue n) ']' Prod.fst Prod.snd rfl (n := n)
      (show items.length ≤ n by omega) hgap rest hgaps
      (fun i hi rest => by
        obtain ⟨c, cs, hc, heq, hrest⟩ := (h i hi).skipWs_eq
        exact ⟨c, by rw [hrest, heq]; rfl, hc⟩)
      fun i hi rest hrest => ih i hi (by
        have := hlen _ (List.mem_map.2 ⟨i, hi, rfl⟩)
        rw [List.length_append] at this
        omega) hrest
    simp [parseValue, skipWs_cons (c := '[') rfl, hitems]
  | @obj gap hgap items hgaps hws h ih =>
    obtain ⟨n, rfl⟩ := Nat.exists_eq_succ_of_ne_zero (show n ≠ 0 by rintro rfl; cases hn)
    rw [List.length_cons] at hn
    have hitems := parseSeq_members hgap hgaps hws h (Nat.le_of_succ_le_succ hn) rest
      fun i hi rest hlen hrest => ih i hi hlen hrest
    have hback : (items.map fun i => i.1.member).map (fun m => (m.key, m.value)) =
        items.map fun i => (i.1.key, i.1.tree) := by
      rw [List.map_map]
      rfl
    simp only [parseValue, List.cons_append, skipWs_cons (c := '\x7b') rfl, List.head?_cons,
      List.tail_cons, hitems, Option.map_some, hback]
    rfl

/-- A text spells one tree. -/
theorem Spells.spells_iff {text : List Char} {t t' : JsonText} (h : Spells text t) :
    Spells text t' ↔ t' = t := by
  constructor
  · intro h'
    have hend : Follows [] := by simp [Follows]
    have hread := parseValue_of_spells h le_rfl hend
    rw [parseValue_of_spells h' le_rfl hend] at hread
    cases hread
    rfl
  · rintro rfl
    exact h

/-! ### What is read is spelled -/

theorem spells_append_ws {ws cs : List Char} {t : JsonText} (hws : IsWs ws) (h : Spells cs t) :
    Spells (ws ++ cs) t := by
  induction ws with
  | nil => exact h
  | cons c ws ih =>
    exact .ws (hws c List.mem_cons_self) (ih fun d hd => hws d (List.mem_cons_of_mem c hd))

/-- What `parseMember` reads is a member, if its value is spelled. -/
theorem exists_of_parseMember {value : List Char → Option (JsonText × List Char)}
    (hvalue : ∀ {cs t rest}, value cs = some (t, rest) → ∃ text, Spells text t ∧ cs = text ++ rest)
    {cs : List Char} {m : Member} {rest : List Char} (h : parseMember value cs = some (m, rest)) :
    ∃ mt : MemberText, (IsWs mt.before ∧ IsWs mt.mid ∧ Spells mt.text mt.tree) ∧
      cs = mt.chars ++ rest ∧ mt.member = m := by
  unfold parseMember at h
  split_ifs at h with hquote
  obtain ⟨k, hk, h⟩ := Option.bind_eq_some_iff.1 h
  split_ifs at h with hcolon
  obtain ⟨v, hv, heq⟩ := Option.map_eq_some_iff.1 h
  cases heq
  obtain ⟨before, hbefore, hcs⟩ := exists_skipWs cs
  obtain ⟨mid, hmid, hk2⟩ := exists_skipWs k.2
  obtain ⟨gap, hgap, htail⟩ := exists_skipWs (skipWs k.2).tail
  obtain ⟨text, htext, hfrom⟩ := hvalue hv
  refine ⟨⟨before, k.1, mid, gap ++ text, v.1⟩,
    ⟨hbefore, hmid, spells_append_ws hgap htext⟩, ?_, ?_⟩
  · rw [cons_tail_of_head? hquote, eq_of_parseParts hk, hk2, cons_tail_of_head? hcolon, htail,
      hfrom] at hcs
    rw [hcs]
    simp [MemberText.chars]
  · -- what was captured starts where the white space ended
    have hstart : skipWs text = text := by
      obtain ⟨c, cs', hc, heq, hskip⟩ := htext.skipWs_eq
      have hidem : skipWs (text ++ v.2) = text ++ v.2 := by
        rw [← hfrom]
        exact List.dropWhile_idempotent _ _
      exact List.append_cancel_right ((hskip v.2).symm.trans hidem)
    have hraw : (text ++ v.2).take ((text ++ v.2).length - v.2.length) = text := by simp
    simp only [MemberText.member, skipWs_append hgap, hstart, hfrom, hraw]

/-- **What is read is the tree the text spells.** -/
theorem exists_of_parseValue {n : ℕ} {cs : List Char} {t : JsonText} {rest : List Char}
    (h : parseValue n cs = some (t, rest)) : ∃ text, Spells text t ∧ cs = text ++ rest := by
  induction n generalizing cs t rest with
  | zero => cases h
  | succ n ih =>
    obtain ⟨ws, hws, hcs⟩ := exists_skipWs cs
    -- it is enough to find the text after the white space
    suffices hcore : ∃ text, Spells text t ∧ skipWs cs = text ++ rest by
      obtain ⟨text, htext, heq⟩ := hcore
      refine ⟨ws ++ text, spells_append_ws hws htext, ?_⟩
      rw [List.append_assoc, ← heq]
      exact hcs
    rw [parseValue] at h
    split_ifs at h with hquote hbracket hbrace hnull htrue hfalse
    · obtain ⟨p, hp, heq⟩ := Option.map_eq_some_iff.1 h
      cases heq
      exact ⟨_, .str p.1, by rw [cons_tail_of_head? hquote, eq_of_parseParts hp]; rfl⟩
    · obtain ⟨p, hp, heq⟩ := Option.map_eq_some_iff.1 h
      cases heq
      obtain ⟨gap, items, hgap, hitems, htail, hval⟩ :=
        exists_of_parseSeq _ _ Prod.fst Prod.snd (P := fun i => Spells i.1 i.2)
          (fun hitem => by
            obtain ⟨text, htext, heq⟩ := ih hitem
            exact ⟨(text, _), htext, heq, rfl⟩) hp
      rw [hval]
      refine ⟨_, .arr hgap items (fun i hi => (hitems i hi).2) fun i hi => (hitems i hi).1, ?_⟩
      rw [cons_tail_of_head? hbracket, htail]
      rfl
    · obtain ⟨p, hp, heq⟩ := Option.map_eq_some_iff.1 h
      cases heq
      obtain ⟨gap, items, hgap, hitems, htail, hval⟩ :=
        exists_of_parseSeq _ _ MemberText.chars MemberText.member
          (fun hitem => exists_of_parseMember ih hitem) hp
      have hmembers : (p.1.map fun m => (m.key, m.value)) =
          items.map fun i => (i.1.key, i.1.tree) := by
        rw [hval, List.map_map]
        rfl
      rw [hmembers]
      refine ⟨_, .obj hgap items (fun i hi => (hitems i hi).2)
        (fun i hi => ⟨(hitems i hi).1.1, (hitems i hi).1.2.1⟩) fun i hi => (hitems i hi).1.2.2, ?_⟩
      rw [cons_tail_of_head? hbrace, htail]
      rfl
    · cases h
      exact ⟨_, .null, by rw [chars_null, ← hnull, List.take_append_drop]⟩
    · cases h
      exact ⟨_, .bool true, by rw [chars_bool, if_pos rfl, ← htrue, List.take_append_drop]⟩
    · cases h
      exact ⟨_, .bool false, by
        rw [chars_bool, if_neg Bool.false_ne_true, ← hfalse, List.take_append_drop]⟩
    · obtain ⟨p, hp, heq⟩ := Option.map_eq_some_iff.1 h
      cases heq
      exact ⟨_, .num p.1, eq_of_parseNumber hp⟩

/-! ### Objects -/

/-- How an object stands in a text, from its opening to its closing brace. -/
structure ObjectText where
  gap : List Char
  items : List (MemberText × List Char)
  gap_isWs : IsWs gap
  items_isWs : ∀ i ∈ items, IsWs i.2
  members_isWs : ∀ i ∈ items, IsWs i.1.before ∧ IsWs i.1.mid
  spells : ∀ i ∈ items, Spells i.1.text i.1.tree

/-- The characters of an object. -/
def ObjectText.chars (o : ObjectText) : List Char :=
  '\x7b' :: seqChars '\x7d' o.gap (o.items.map fun i => i.1.chars ++ i.2)

/-- The members that are read. -/
def ObjectText.members (o : ObjectText) : List Member := o.items.map fun i => i.1.member

/-- **An object is read back as its members**, if nothing but white space follows it. -/
theorem parseObject_chars {ws : List Char} (hws : IsWs ws) (o : ObjectText) (rest : List Char) :
    parseObject (ws ++ (o.chars ++ rest)) = if skipWs rest = [] then some o.members else none := by
  have hskip : skipWs (ws ++ (o.chars ++ rest)) = o.chars ++ rest := by
    rw [skipWs_append hws]
    exact skipWs_cons (c := '\x7b') rfl _
  generalize hn : (o.chars ++ rest).length = n
  have hlen : (seqChars '\x7d' o.gap (o.items.map fun i => i.1.chars ++ i.2)).length ≤ n := by
    rw [← hn, List.length_append, ObjectText.chars, List.length_cons]
    omega
  have hitems := parseSeq_members o.gap_isWs o.items_isWs o.members_isWs o.spells hlen rest
    fun i hi rest hlen hrest => parseValue_of_spells (o.spells i hi) hlen hrest
  simp only [parseObject, hskip, hn]
  simp only [ObjectText.chars, List.cons_append, List.head?_cons, List.tail_cons, if_true, hitems,
    Option.bind_some, ObjectText.members]

/-- **What is read as an object is one**, with white space before and after it. -/
theorem exists_of_parseObject {cs : List Char} {ms : List Member} (h : parseObject cs = some ms) :
    ∃ (ws : List Char) (o : ObjectText) (post : List Char), IsWs ws ∧ skipWs post = [] ∧
      cs = ws ++ (o.chars ++ post) ∧ ms = o.members := by
  unfold parseObject at h
  simp only at h
  split_ifs at h with hbrace
  obtain ⟨p, hp, h⟩ := Option.bind_eq_some_iff.1 h
  split_ifs at h with hend
  cases h
  obtain ⟨ws, hws, hcs⟩ := exists_skipWs cs
  obtain ⟨gap, items, hgap, hitems, htail, hval⟩ :=
    exists_of_parseSeq _ _ MemberText.chars MemberText.member
      (fun hitem => exists_of_parseMember exists_of_parseValue hitem) hp
  let o : ObjectText :=
    { gap := gap
      items := items
      gap_isWs := hgap
      items_isWs := fun i hi => (hitems i hi).2
      members_isWs := fun i hi => ⟨(hitems i hi).1.1, (hitems i hi).1.2.1⟩
      spells := fun i hi => (hitems i hi).1.2.2 }
  refine ⟨ws, o, p.2, hws, hend, ?_, hval⟩
  rw [cons_tail_of_head? hbrace, htail] at hcs
  exact hcs

/-- **The members of an object are read back, each with its own text.** -/
theorem parseObject_items {gap : List Char} (hgap : IsWs gap)
    (items : List (MemberText × List Char))
    (hgaps : ∀ i ∈ items, IsWs i.2) (hws : ∀ i ∈ items, IsWs i.1.before ∧ IsWs i.1.mid)
    (h : ∀ i ∈ items, Spells i.1.text i.1.tree) :
    parseObject ('\x7b' :: seqChars '\x7d' gap (items.map fun i => i.1.chars ++ i.2)) =
      some (items.map fun i => i.1.member) := by
  have hnil : IsWs [] := by simp [IsWs]
  have hobject := parseObject_chars hnil ⟨gap, items, hgap, hgaps, hws, h⟩ []
  rwa [List.nil_append, List.append_nil, if_pos (show skipWs [] = [] from rfl)] at hobject

/-- **Every member that is read has the text its value is spelled by.** -/
theorem spells_of_parseObject {cs : List Char} {ms : List Member} (h : parseObject cs = some ms) :
    ∀ m ∈ ms, Spells m.raw m.value ∧ skipWs m.raw = m.raw := by
  obtain ⟨ws, o, post, -, -, -, rfl⟩ := exists_of_parseObject h
  intro m hm
  obtain ⟨i, hi, rfl⟩ := List.mem_map.1 hm
  exact ⟨(o.spells i hi).skipWs, List.dropWhile_idempotent _ _⟩

/-! ### Other white space -/

/-- A map of characters that may change control characters, but keeps white space white. -/
structure KeepsSpelling (f : Char → Char) : Prop where
  visible : ∀ c, ' ' ≤ c → f c = c
  space : ∀ c, isWs c = true → isWs (f c) = true

section Respace

variable {f : Char → Char} (hf : KeepsSpelling f)
include hf

theorem KeepsSpelling.map_eq {cs : List Char} (h : ∀ c ∈ cs, ' ' ≤ c) : cs.map f = cs := by
  conv_rhs => rw [← List.map_id cs]
  exact List.map_congr_left fun c hc => hf.visible c (h c hc)

theorem KeepsSpelling.isWs_map {ws : List Char} (h : IsWs ws) : IsWs (ws.map f) := by
  intro c hc
  obtain ⟨d, hd, rfl⟩ := List.mem_map.1 hc
  exact hf.space d (h d hd)

theorem KeepsSpelling.map_partsChars (ps : List StrPart) :
    (partsChars ps).map f = partsChars ps := hf.map_eq (le_of_mem_partsChars ps)

theorem KeepsSpelling.map_seqChars {close : Char} (hclose : ' ' ≤ close) (gap : List Char)
    (xs : List (List Char)) :
    (seqChars close gap xs).map f = seqChars close (gap.map f) (xs.map (List.map f)) := by
  have htail : ∀ xs : List (List Char),
      (tailChars close xs).map f = tailChars close (xs.map (List.map f)) := by
    intro xs
    induction xs with
    | nil => simp [tailChars, hf.visible close hclose]
    | cons x xs ih =>
      have hcomma : f ',' = ',' := hf.visible ',' (by decide)
      rw [tailChars, List.foldr_cons, ← tailChars, List.map_cons, List.map_append, hcomma, ih]
      rfl
  cases xs with
  | nil => simp [seqChars, hf.visible close hclose]
  | cons x xs => rw [seqChars, List.map_append, htail, List.map_cons, seqChars]

/-- **A text whose control characters are changed to white space spells the same tree**: they stand
between tokens. -/
theorem Spells.map {text : List Char} {t : JsonText} (h : Spells text t) : Spells (text.map f) t := by
  induction h with
  | @ws c cs t hc h ih => exact .ws (hf.space c hc) ih
  | null =>
    have hvisible : (chars .null).all (fun c => ' ' ≤ c) = true := by decide
    rw [hf.map_eq fun c hc => of_decide_eq_true (List.all_eq_true.1 hvisible c hc)]
    exact .null
  | bool b =>
    have hvisible : (chars (.bool b)).all (fun c => ' ' ≤ c) = true := by cases b <;> decide
    rw [hf.map_eq fun c hc => of_decide_eq_true (List.all_eq_true.1 hvisible c hc)]
    exact .bool b
  | num n =>
    have hdigit : ∀ c : Char, c.isDigit = true → ' ' ≤ c := by
      intro c hc
      simp only [Char.isDigit, Bool.and_eq_true, decide_eq_true_eq] at hc
      exact Char.le_trans (by decide) hc.1
    rw [hf.map_eq (forall_mem_numberChars hdigit (by decide) n)]
    exact .num n
  | str ps =>
    have hquote : f '"' = '"' := hf.visible '"' (by decide)
    rw [List.map_cons, hquote, hf.map_partsChars]
    exact .str ps
  | @arr gap hgap items hgaps h ih =>
    have hopen : f '[' = '[' := hf.visible '[' (by decide)
    have harr := Spells.arr (hf.isWs_map hgap)
      (items.map fun i => ((i.1.1.map f, i.1.2), i.2.map f))
      (List.forall_mem_map.2 fun i hi => hf.isWs_map (hgaps i hi)) (List.forall_mem_map.2 ih)
    rw [List.map_cons, hopen, hf.map_seqChars (by decide)]
    simpa [Function.comp_def] using harr
  | @obj gap hgap items hgaps hws h ih =>
    have hopen : f '\x7b' = '\x7b' := hf.visible '\x7b' (by decide)
    have hquote : f '"' = '"' := hf.visible '"' (by decide)
    have hcolon : f ':' = ':' := hf.visible ':' (by decide)
    have hobj := Spells.obj (hf.isWs_map hgap)
      (items.map fun i => (⟨i.1.before.map f, i.1.key, i.1.mid.map f, i.1.text.map f, i.1.tree⟩,
        i.2.map f))
      (List.forall_mem_map.2 fun i hi => hf.isWs_map (hgaps i hi))
      (List.forall_mem_map.2 fun i hi => ⟨hf.isWs_map (hws i hi).1, hf.isWs_map (hws i hi).2⟩)
      (List.forall_mem_map.2 ih)
    rw [List.map_cons, hopen, hf.map_seqChars (by decide)]
    simpa [Function.comp_def, MemberText.chars, hquote, hcolon, hf.map_partsChars] using hobj

end Respace

end JsonText
