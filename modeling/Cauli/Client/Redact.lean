import Cauli.Lib.PyText
import Cauli.Lib.TextScan

/-!
# Redacting a Redis URL (`worker/src/lib.rs`, `py/cauli/app.py`)

The URL of the store is logged without its credentials: the text before the last `@` that is not in the
query, and the values of some parameters of the query. The worker and the client each have their own
function for it. Offsets are positions of characters here; those of the source are always at the
boundary of a character.

* `redactRedisUrl`, `redactQueryCredentials`: the functions of the worker;
* `Py.redactRedisUrl`, `Py.redactQueryCredentials`: those of the client;
* `redactRedisUrl_eq`: they return the same text;
* `Hides`: what is returned does not depend on the credentials;
* `redaction_hides_credentials`: of both functions.
-/

namespace Cauli.Redact

open TextScan

/-- `is_credential_key`. -/
def isCredentialKey (key : List Char) : Bool :=
  key ∈ ["password".toList, "username".toList, "pass".toList, "user".toList] || '%' ∈ key

/-- `pair.split_once('=')`. -/
def splitOnce (pair : List Char) : Option (List Char × List Char) :=
  (pair.findIdx? (· == '=')).map fun i => (pair.take i, pair.drop (i + 1))

/-- One parameter of the query. -/
def maskPair (pair : List Char) : List Char :=
  match splitOnce pair with
  | some (k, _) => if isCredentialKey k then k ++ "=***".toList else pair
  | none => pair

/-- What follows the `?`. -/
def redactParameters (rest : List Char) : List Char :=
  let (query, fragment) :=
    match rest.findIdx? (· == '#') with
    | some i => rest.splitAt i
    | none => (rest, [])
  let masked := ['&'].intercalate ((query.splitOn '&').map maskPair)
  masked ++ fragment

/-- `redact_query_credentials`. -/
def redactQueryCredentials (tail : List Char) : List Char :=
  match tail.findIdx? (· == '?') with
  | none => tail
  | some q =>
    let path := tail.take q
    let rest := tail.drop (q + 1)
    path ++ '?' :: redactParameters rest

/-- The mask, and what follows the userinfo. -/
def splitUserinfo (rest : List Char) : List Char × List Char :=
  let userinfoEnd := (rest.findIdx? (· == '?')).getD rest.length
  match rfind '@' (rest.take userinfoEnd) with
  | some at_ => ("***@".toList, rest.drop (at_ + 1))
  | none => ([], rest)

/-- What follows the scheme, redacted. -/
def redactRest (rest : List Char) : List Char :=
  let (mask, rest) := splitUserinfo rest
  let authorityEnd := (rest.findIdx? fun c => c == '/' || c == '?' || c == '#').getD rest.length
  let (authority, tail) := rest.splitAt authorityEnd
  mask ++ authority ++ redactQueryCredentials tail

/-- `redact_redis_url`. -/
def redactRedisUrl (url : List Char) : List Char :=
  match find [':', '/', '/'] url with
  | none => url
  | some schemeEnd =>
    let scheme := url.take schemeEnd
    let rest := url.drop (schemeEnd + 3)
    scheme ++ [':', '/', '/'] ++ redactRest rest

namespace Py

/-- The position that `str.find` and `str.rfind` return, `-1` if there is none. -/
def index (i : Option ℕ) : ℤ := i.elim (-1) (↑)

/-- `_is_credential_key`. -/
def isCredentialKey (name : List Char) : Bool :=
  name ∈ ["password".toList, "username".toList, "pass".toList, "user".toList] || '%' ∈ name

/-- One turn of the loop over the parameters. -/
def maskPair (pair : List Char) : List Char :=
  let (name, _) := PyText.partition '=' pair
  let sep := decide ('=' ∈ pair)
  if sep && isCredentialKey name then name ++ "=***".toList else pair

/-- `_redact_query_credentials`. -/
def redactQueryCredentials (tail : List Char) : List Char :=
  let q := index (tail.findIdx? (· == '?'))
  if q = -1 then tail
  else
    let path := tail.take q.toNat
    let rest := tail.drop (q + 1).toNat
    let h := index (rest.findIdx? (· == '#'))
    let (rest, fragment) := if h ≠ -1 then (rest.take h.toNat, rest.drop h.toNat) else (rest, [])
    let pairs := (rest.splitOn '&').foldl (fun pairs pair => pairs ++ [maskPair pair]) []
    path ++ '?' :: ['&'].intercalate pairs ++ fragment

/-- One turn of the loop that looks for the end of the authority. -/
def earlier (rest : List Char) (authorityEnd : ℤ) (ch : Char) : ℤ :=
  let i := index (rest.findIdx? (· == ch))
  if i ≠ -1 then min authorityEnd i else authorityEnd

/-- The end of the authority. -/
def authorityEnd (rest : List Char) : ℤ := ['/', '?', '#'].foldl (earlier rest) rest.length

/-- `_redact_redis_url`. -/
def redactRedisUrl (url : List Char) : List Char :=
  let schemeSep := index (find [':', '/', '/'] url)
  if schemeSep = -1 then url
  else
    let rest := url.drop (schemeSep + 3).toNat
    let queryStart := index (rest.findIdx? (· == '?'))
    let at_ := index (rfind '@' (rest.take (if queryStart = -1 then rest.length else queryStart.toNat)))
    let mask := if at_ ≠ -1 then "***@".toList else []
    let rest := rest.drop (at_ + 1).toNat
    let authority := rest.take (authorityEnd rest).toNat
    let tail := rest.drop (authorityEnd rest).toNat
    url.take schemeSep.toNat ++ [':', '/', '/'] ++ mask ++ authority ++ redactQueryCredentials tail

end Py

/-! ### The two functions agree -/

@[simp] theorem index_none : Py.index none = -1 := rfl

@[simp] theorem index_some (i : ℕ) : Py.index (some i) = i := rfl

theorem maskPair_eq (pair : List Char) : Py.maskPair pair = maskPair pair := by
  have hname : (PyText.partition '=' pair).1 = pair.take (pair.findIdx (· == '=')) := by
    rw [PyText.partition, List.takeWhile_eq_take_findIdx_not]
    simp [bne]
  simp only [Py.maskPair, maskPair, splitOnce]
  cases hfind : pair.findIdx? (· == '=') with
  | none =>
    have hmem : '=' ∉ pair := findIdx?_eq_none.1 hfind
    simp [hmem]
  | some i =>
    have hmem : '=' ∈ pair := by
      by_contra hnot
      rw [findIdx?_eq_none.2 hnot] at hfind
      cases hfind
    rw [hname, List.findIdx_eq_getD_findIdx?, hfind]
    simp [hmem, Py.isCredentialKey, isCredentialKey]

theorem foldl_maskPair (pairs : List (List Char)) :
    pairs.foldl (fun pairs pair => pairs ++ [Py.maskPair pair]) [] = pairs.map maskPair := by
  rw [List.foldl_append_eq_append, List.nil_append, funext maskPair_eq]
  induction pairs with
  | nil => rfl
  | cons pair pairs ih => rw [List.map_cons, List.flatten_cons, ih, List.map_cons, List.singleton_append]

theorem redactQueryCredentials_eq (tail : List Char) :
    Py.redactQueryCredentials tail = redactQueryCredentials tail := by
  simp only [Py.redactQueryCredentials, redactQueryCredentials, redactParameters, foldl_maskPair]
  cases tail.findIdx? (· == '?') with
  | none => rfl
  | some q =>
    have hne : ((q : ℕ) : ℤ) ≠ -1 := by omega
    have hnext : ((q : ℤ) + 1).toNat = q + 1 := by omega
    simp only [index_some, if_neg hne, hnext, Int.toNat_natCast]
    cases (tail.drop (q + 1)).findIdx? (· == '#') with
    | none => simp
    | some i =>
      have hne : ((i : ℕ) : ℤ) ≠ -1 := by omega
      simp [hne, List.splitAt_eq]

/-- One turn of the loop takes the earlier position. -/
theorem earlier_eq {rest : List Char} {n : ℕ} (hn : n ≤ rest.length) (ch : Char) :
    Py.earlier rest n ch = ((min n (rest.findIdx (· == ch)) : ℕ) : ℤ) := by
  rw [Py.earlier, List.findIdx_eq_getD_findIdx?]
  cases rest.findIdx? (· == ch) with
  | none => simp [hn]
  | some i =>
    have hne : ((i : ℕ) : ℤ) ≠ -1 := by omega
    rw [index_some, if_pos hne, Option.getD_some]
    omega

theorem authorityEnd_eq (rest : List Char) :
    Py.authorityEnd rest =
      ((rest.findIdx? fun c => c == '/' || c == '?' || c == '#').getD rest.length : ℕ) := by
  rw [Py.authorityEnd, List.foldl_cons, List.foldl_cons, List.foldl_cons, List.foldl_nil,
    earlier_eq le_rfl, earlier_eq (min_le_left _ _),
    earlier_eq ((min_le_left _ _).trans (min_le_left _ _)), ← List.findIdx_eq_getD_findIdx?,
    findIdx_or, findIdx_or, min_eq_right List.findIdx_le_length]

/-- **The worker and the client return the same text.** -/
theorem redactRedisUrl_eq (url : List Char) : Py.redactRedisUrl url = redactRedisUrl url := by
  simp only [Py.redactRedisUrl, redactRedisUrl, redactRest, splitUserinfo]
  cases find [':', '/', '/'] url with
  | none => rfl
  | some schemeEnd =>
    have hne : ((schemeEnd : ℕ) : ℤ) ≠ -1 := by omega
    have hnext : ((schemeEnd : ℤ) + 3).toNat = schemeEnd + 3 := by omega
    simp only [index_some, if_neg hne, hnext, Int.toNat_natCast]
    set rest := url.drop (schemeEnd + 3)
    have hend : (if Py.index (rest.findIdx? (· == '?')) = -1 then rest.length
        else (Py.index (rest.findIdx? (· == '?'))).toNat) =
          (rest.findIdx? (· == '?')).getD rest.length := by
      cases rest.findIdx? (· == '?') with
      | none => rfl
      | some i =>
        have hne : ((i : ℕ) : ℤ) ≠ -1 := by omega
        simp [hne]
    rw [hend]
    cases rfind '@' (rest.take ((rest.findIdx? (· == '?')).getD rest.length)) with
    | none => simp [authorityEnd_eq, redactQueryCredentials_eq, List.splitAt_eq]
    | some i =>
      have hne : ((i : ℕ) : ℤ) ≠ -1 := by omega
      have hnext : ((i : ℤ) + 1).toNat = i + 1 := by omega
      simp [hne, hnext, authorityEnd_eq, redactQueryCredentials_eq, List.splitAt_eq]

/-! ### What is returned does not depend on the credentials -/

/-- What a function that redacts URLs promises. `rest` is the host, the path, the query and the fragment;
`front` is what stands between the scheme and the query, with the userinfo if there is one. -/
structure Hides (redact : List Char → List Char) : Prop where
  userinfo : ∀ scheme userinfo userinfo' rest : List Char, ¬[':', '/', '/'] <:+: scheme →
    '?' ∉ userinfo → '?' ∉ userinfo' →
    redact (scheme ++ [':', '/', '/'] ++ userinfo ++ '@' :: rest) =
      redact (scheme ++ [':', '/', '/'] ++ userinfo' ++ '@' :: rest)
  query : ∀ (scheme front key value value' fragment : List Char) (before after : List (List Char)),
    ¬[':', '/', '/'] <:+: scheme → '?' ∉ front →
    (key ∈ ["password".toList, "username".toList, "pass".toList, "user".toList] ∨ '%' ∈ key) →
    (∀ c ∈ ['=', '&', '#'], c ∉ key) → (∀ v ∈ [value, value'], '&' ∉ v ∧ '#' ∉ v) →
    (∀ p ∈ before ++ after, '&' ∉ p ∧ '#' ∉ p) → (fragment = [] ∨ ∃ f, fragment = '#' :: f) →
    redact (scheme ++ [':', '/', '/'] ++ front ++ '?' ::
        ['&'].intercalate (before ++ (key ++ '=' :: value) :: after) ++ fragment) =
      redact (scheme ++ [':', '/', '/'] ++ front ++ '?' ::
        ['&'].intercalate (before ++ (key ++ '=' :: value') :: after) ++ fragment)

/-- The end of the scheme is found where it is. -/
theorem find_scheme {scheme : List Char} (h : ¬[':', '/', '/'] <:+: scheme) (rest : List Char) :
    find [':', '/', '/'] (scheme ++ [':', '/', '/'] ++ rest) = some scheme.length := by
  induction scheme with
  | nil => simp [find]
  | cons c scheme ih =>
    have hinfix : ¬[':', '/', '/'] <:+: scheme := fun hin => h (hin.trans (List.suffix_cons _ _).isInfix)
    have hprefix : [':', '/', '/'].isPrefixOf (c :: (scheme ++ [':', '/', '/'] ++ rest)) = false := by
      rw [Bool.eq_false_iff, ne_eq, List.isPrefixOf_iff_prefix]
      rintro ⟨t, ht⟩
      match scheme, h with
      | [], _ => simp at ht
      | [d], _ => simp at ht
      | d :: e :: scheme, h =>
        obtain ⟨rfl, rfl, rfl, -⟩ : ':' = c ∧ '/' = d ∧ '/' = e ∧ _ := by simpa using ht
        exact h ⟨[], scheme, rfl⟩
    rw [List.cons_append, List.cons_append, find, hprefix, ih hinfix]
    rfl

/-- A redacted URL is its scheme and what follows it, redacted. -/
theorem redactRedisUrl_append {scheme : List Char} (h : ¬[':', '/', '/'] <:+: scheme)
    (rest : List Char) :
    redactRedisUrl (scheme ++ [':', '/', '/'] ++ rest) = scheme ++ [':', '/', '/'] ++ redactRest rest := by
  have hdrop : (scheme ++ [':', '/', '/'] ++ rest).drop (scheme.length + 3) = rest := by
    rw [List.append_assoc, ← List.drop_drop, List.drop_left]
    rfl
  have htake : (scheme ++ [':', '/', '/'] ++ rest).take scheme.length = scheme := by
    rw [List.append_assoc, List.take_left]
  rw [redactRedisUrl, find_scheme h]
  simp only [hdrop, htake]

/-- The userinfo is dropped up to the last `@` in front of the query. -/
theorem splitUserinfo_append {userinfo : List Char} (h : '?' ∉ userinfo) (rest : List Char) :
    splitUserinfo (userinfo ++ '@' :: rest) =
      ("***@".toList,
        rest.drop (((rfind '@' (rest.take ((rest.findIdx? (· == '?')).getD rest.length))).map
          (· + 1)).getD 0)) := by
  have hend : ((userinfo ++ '@' :: rest).findIdx? (· == '?')).getD (userinfo ++ '@' :: rest).length =
      userinfo.length + (1 + (rest.findIdx? (· == '?')).getD rest.length) := by
    rw [List.findIdx?_append, findIdx?_eq_none.2 h, List.findIdx?_cons]
    cases rest.findIdx? (· == '?') with
    | none => simp [Nat.add_comm]
    | some i =>
      simp
      omega
  set e := (rest.findIdx? (· == '?')).getD rest.length
  have htake : (userinfo ++ '@' :: rest).take (userinfo.length + (1 + e)) =
      userinfo ++ '@' :: rest.take e := by
    rw [List.take_append, List.take_of_length_le (Nat.le_add_right _ _), Nat.add_sub_cancel_left,
      Nat.add_comm 1 e, List.take_succ_cons]
  simp only [splitUserinfo, hend, htake, rfind_append, rfind_cons_self, Option.map_some, Option.some_or]
  congr 1
  have hdrop : (userinfo ++ '@' :: rest).drop (userinfo.length + 1) = rest := by
    rw [← List.drop_drop, List.drop_left, List.drop_one, List.tail_cons]
  rw [Nat.add_assoc, Nat.add_comm _ (_ + 1), ← List.drop_drop, hdrop]

/-- What stands in front of the query is redacted on its own. -/
theorem exists_redactRest {front : List Char} (h : '?' ∉ front) :
    ∃ head path, '?' ∉ path ∧ ∀ query, redactRest (front ++ '?' :: query) =
      head ++ redactQueryCredentials (path ++ '?' :: query) := by
  have hsplit : ∃ mask front', '?' ∉ front' ∧
      ∀ query, splitUserinfo (front ++ '?' :: query) = (mask, front' ++ '?' :: query) := by
    have htake : ∀ query, (front ++ '?' :: query).take
        (((front ++ '?' :: query).findIdx? (· == '?')).getD (front ++ '?' :: query).length) = front := by
      intro query
      rw [findIdx?_append_cons h, Option.getD_some, List.take_left]
    simp only [splitUserinfo, htake]
    cases hat : rfind '@' front with
    | none => exact ⟨[], front, h, fun _ => rfl⟩
    | some i =>
      refine ⟨"***@".toList, front.drop (i + 1), fun hin => h (List.mem_of_mem_drop hin), fun query => ?_⟩
      exact congrArg _ (List.drop_append_of_le_length (rfind_lt hat))
  obtain ⟨mask, front', hfront', hsplit⟩ := hsplit
  have hend : ∀ query, ((front' ++ '?' :: query).findIdx? fun c => c == '/' || c == '?' || c == '#').getD
      (front' ++ '?' :: query).length = front'.findIdx fun c => c == '/' || c == '?' || c == '#' := by
    intro query
    rw [← List.findIdx_eq_getD_findIdx?, List.findIdx_append]
    split_ifs with hlt
    · rfl
    · rw [List.findIdx_cons]
      have hlength : (front'.findIdx fun c => c == '/' || c == '?' || c == '#') = front'.length :=
        le_antisymm List.findIdx_le_length (not_lt.1 hlt)
      simp [hlength]
  set a := front'.findIdx fun c => c == '/' || c == '?' || c == '#'
  have ha : a ≤ front'.length := List.findIdx_le_length
  refine ⟨mask ++ front'.take a, front'.drop a, fun hin => hfront' (List.mem_of_mem_drop hin),
    fun query => ?_⟩
  simp only [redactRest, hsplit, hend, List.splitAt_eq, List.take_append_of_le_length ha,
    List.drop_append_of_le_length ha]

theorem redactQueryCredentials_append {path : List Char} (h : '?' ∉ path) (query : List Char) :
    redactQueryCredentials (path ++ '?' :: query) = path ++ '?' :: redactParameters query := by
  rw [redactQueryCredentials, findIdx?_append_cons h]
  simp

/-- The parameters of a query are masked one by one. -/
theorem redactParameters_eq {params : List (List Char)} {fragment : List Char} (hne : params ≠ [])
    (hparams : ∀ p ∈ params, '&' ∉ p ∧ '#' ∉ p) (hfragment : fragment = [] ∨ ∃ f, fragment = '#' :: f) :
    redactParameters (['&'].intercalate params ++ fragment) =
      ['&'].intercalate (params.map maskPair) ++ fragment := by
  have hquery : '#' ∉ ['&'].intercalate params := by
    intro hin
    rcases mem_of_mem_intercalate hin with hsep | ⟨p, hp, hmem⟩
    · exact absurd hsep (by decide)
    · exact (hparams p hp).2 hmem
  have hsplit : (['&'].intercalate params).splitOn '&' = params :=
    List.splitOn_intercalate '&' (fun p hp => (hparams p hp).1) hne
  rcases hfragment with rfl | ⟨f, rfl⟩
  · rw [List.append_nil, redactParameters, findIdx?_eq_none.2 hquery]
    simp only [hsplit]
  · rw [redactParameters, findIdx?_append_cons hquery]
    simp only [List.splitAt_eq, List.take_left, List.drop_left, hsplit]

theorem maskPair_of_credential {key : List Char} (hkey : isCredentialKey key = true)
    (heq : '=' ∉ key) (value : List Char) : maskPair (key ++ '=' :: value) = key ++ "=***".toList := by
  have hsplit : splitOnce (key ++ '=' :: value) = some (key, value) := by
    rw [splitOnce, findIdx?_append_cons heq]
    simp
  rw [maskPair, hsplit]
  exact if_pos hkey

theorem hides_redactRedisUrl : Hides redactRedisUrl := by
  constructor
  · intro scheme userinfo userinfo' rest hscheme huser huser'
    rw [List.append_assoc _ userinfo, List.append_assoc _ userinfo', redactRedisUrl_append hscheme,
      redactRedisUrl_append hscheme, redactRest, redactRest, splitUserinfo_append huser,
      splitUserinfo_append huser']
  · intro scheme front key value value' fragment before after hscheme hfront hkey hsep hvalues hparams
      hfragment
    have hcredential : isCredentialKey key = true := by simpa [isCredentialKey] using hkey
    have hquery : ∀ v ∈ [value, value'],
        redactParameters (['&'].intercalate (before ++ (key ++ '=' :: v) :: after) ++ fragment) =
          ['&'].intercalate (before.map maskPair ++ (key ++ "=***".toList) :: after.map maskPair) ++
            fragment := by
      intro v hv
      have hpair : '&' ∉ key ++ '=' :: v ∧ '#' ∉ key ++ '=' :: v := by
        have hv := hvalues v hv
        have hamp := hsep '&' (by simp)
        have hhash := hsep '#' (by simp)
        simp [hv, hamp, hhash]
      have hall : ∀ p ∈ before ++ (key ++ '=' :: v) :: after, '&' ∉ p ∧ '#' ∉ p := by
        intro p hp
        rcases List.mem_append.1 hp with hp | hp
        · exact hparams p (List.mem_append_left _ hp)
        · rcases List.mem_cons.1 hp with rfl | hp
          · exact hpair
          · exact hparams p (List.mem_append_right _ hp)
      rw [redactParameters_eq (by simp) hall hfragment, List.map_append, List.map_cons,
        maskPair_of_credential hcredential (hsep '=' (by simp))]
    obtain ⟨head, path, hpath, hrest⟩ := exists_redactRest hfront
    have hurl : ∀ v ∈ [value, value'],
        redactRedisUrl (scheme ++ [':', '/', '/'] ++ front ++ '?' ::
          ['&'].intercalate (before ++ (key ++ '=' :: v) :: after) ++ fragment) =
        scheme ++ [':', '/', '/'] ++ (head ++ (path ++ '?' ::
          (['&'].intercalate (before.map maskPair ++ (key ++ "=***".toList) :: after.map maskPair) ++
            fragment))) := by
      intro v hv
      rw [List.append_assoc, List.append_assoc _ front, List.cons_append,
        redactRedisUrl_append hscheme, hrest, redactQueryCredentials_append hpath, hquery v hv]
    rw [hurl value (by simp), hurl value' (by simp)]

/-- **Redaction hides credentials**: the two functions return the same text for every URL, and what they
return depends neither on the userinfo nor on the value of a credential in the query. -/
theorem redaction_hides_credentials :
    (∀ url, Py.redactRedisUrl url = redactRedisUrl url) ∧ Hides redactRedisUrl ∧
      Hides Py.redactRedisUrl := by
  have heq : Py.redactRedisUrl = redactRedisUrl := funext redactRedisUrl_eq
  rw [heq]
  exact ⟨fun _ => rfl, hides_redactRedisUrl, hides_redactRedisUrl⟩

example : redactRedisUrl "redis://u:Zm9v/Y@F#y@dbhost:6379/0?db=1&%70assword=s3@cr3t".toList =
    "redis://***@dbhost:6379/0?db=1&%70assword=***".toList := by decide +kernel

end Cauli.Redact
