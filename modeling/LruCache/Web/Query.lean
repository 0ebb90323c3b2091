import LruCache.Web.Requests

/-!
# What arrives of a text that was typed

`executeOp` of `public/app.js` encodes the texts that were typed with `encodeURIComponent`, and
`get_query_param` decodes nothing. So the two sides agree on a text if and only if there is
nothing to encode in it (`agree_iff`). A text of the page is a `String` of Unicode characters; in
the server it is the text of its UTF-8 bytes.

Main results:

* `notMem_encodeURIComponent` — an encoded text never comes apart in an address or a batch.
* `encodeURIComponent_eq_iff` — it is the text itself exactly if there is nothing to encode.
* `agree_iff` — so the server gets what was typed exactly then.

Deliberate scope limits:

* The address is taken as `fetch` is given it. A browser encodes an apostrophe on top of that,
  which `encodeURIComponent` leaves as it is.
* A text is one that can be encoded: `encodeURIComponent` throws at half of a surrogate pair, which
  is no `Char`.
-/

namespace LruCache

/-! ## The front end -/

/-- The characters that `encodeURIComponent` leaves as they are. -/
def isUnreserved (ch : Char) : Bool :=
  ch.isAlphanum || "-_.!~*'()".toList.contains ch

/-- A byte as '%' and two hexadecimal digits. -/
def percentByte (byte : UInt8) : List Char :=
  ['%', (Nat.digitChar (byte.toNat / 16)).toUpper, (Nat.digitChar (byte.toNat % 16)).toUpper]

/-- A character is left as it is, or every byte of it is encoded. -/
def encodeChar (ch : Char) : List Char :=
  if isUnreserved ch then [ch] else (String.utf8EncodeChar ch).flatMap percentByte

/-- `encodeURIComponent`. -/
def encodeURIComponent (str : String) : String := .ofList (str.toList.flatMap encodeChar)

/-- The `std::string` of a text: its UTF-8 bytes, each one being a character. -/
def utf8Text (str : String) : String :=
  .ofList (str.toList.flatMap fun ch => (String.utf8EncodeChar ch).map fun byte =>
    Char.ofNat byte.toNat)

/-- The operations of the page that have a key. -/
inductive PageOp where
  | put
  | get
  | del
deriving DecidableEq, Repr

/-- The address that `executeOp` fetches, if it does, with what is in the two fields. -/
def executeOp (op : PageOp) (k v : String) : Option String :=
  match op with
  | .put =>
      if k = "" ∨ v = "" then none
      else some (putUrl (encodeURIComponent k) (encodeURIComponent v))
  | .get => if k = "" then none else some (getUrl (encodeURIComponent k))
  | .del => if k = "" then none else some (removeUrl (encodeURIComponent k))

/-- What the server gets for a parameter, if the page fetches something. -/
def received (op : PageOp) (k v rest param : String) : Option String :=
  (executeOp op k v).map fun url => getQueryParam (requestPath (fetchPost url rest)) param

/-- The server gets the texts that were typed, in all operations. -/
structure Agree (k v : String) : Prop where
  putKey : ∀ rest, received .put k v rest "key" = some (utf8Text k)
  putValue : ∀ rest, received .put k v rest "value" = some (utf8Text v)
  getKey : ∀ rest, received .get k v rest "key" = some (utf8Text k)
  delKey : ∀ rest, received .del k v rest "key" = some (utf8Text k)

/-! ## Encoded texts -/

section Encoding

variable {ch : Char} {str : String}

/-- Letters and digits are ASCII. -/
theorem toNat_lt_of_isAlphanum (h : ch.isAlphanum = true) : ch.toNat < 128 := by
  have hranges : (ch.isUpper || ch.isLower || ch.isDigit) = true := h
  rw [Bool.or_eq_true, Bool.or_eq_true] at hranges
  rcases hranges with (hupper | hlower) | hdigit
  · have hle : ch.val ≤ 'Z'.val := (of_decide_eq_true hupper).2
    exact Nat.lt_of_le_of_lt (UInt32.le_iff_toNat_le.mp hle) (by decide)
  · have hle : ch.val ≤ 'z'.val := of_decide_eq_true (Bool.and_eq_true_iff.mp hlower).2
    exact Nat.lt_of_le_of_lt (UInt32.le_iff_toNat_le.mp hle) (by decide)
  · have hle : ch.val ≤ '9'.val := of_decide_eq_true (Bool.and_eq_true_iff.mp hdigit).2
    exact Nat.lt_of_le_of_lt (UInt32.le_iff_toNat_le.mp hle) (by decide)

/-- So are all characters that are left as they are. -/
theorem toNat_lt_of_isUnreserved (h : isUnreserved ch = true) : ch.toNat < 128 := by
  rw [isUnreserved, Bool.or_eq_true] at h
  rcases h with halphanum | hmark
  · exact toNat_lt_of_isAlphanum halphanum
  · rw [List.contains_iff_mem] at hmark
    have hall : ("-_.!~*'()".toList.all fun mark => mark.toNat < 128) = true := by decide
    exact of_decide_eq_true (List.all_eq_true.mp hall ch hmark)

/-- Such a character is its only byte. -/
theorem utf8EncodeChar_of_isUnreserved (h : isUnreserved ch = true) :
    String.utf8EncodeChar ch = [ch.val.toUInt8] ∧ Char.ofNat ch.val.toUInt8.toNat = ch := by
  have hlt := toNat_lt_of_isUnreserved h
  refine ⟨String.utf8EncodeChar_eq_singleton ?_, ?_⟩
  · rw [Char.utf8Size_eq_one_iff, UInt32.le_iff_toNat_le]
    exact Nat.le_of_lt_succ hlt
  · have hbyte : ch.val.toUInt8.toNat = ch.toNat :=
      Nat.mod_eq_of_lt (Nat.lt_of_lt_of_le hlt (by decide))
    rw [hbyte, Char.ofNat_toNat]

/-- The characters that part an address, or a batch, into its texts. -/
def separators : List Char := ['&', '=', ' ', ',', '|']

/-- An encoded byte has no separator in it, -/
theorem notMem_percentByte (byte : UInt8) (hch : ch ∈ separators) : ch ∉ percentByte byte := by
  have hdigits : (separators.all fun sep => sep ≠ '%' &&
      (List.range 16).all fun n => sep ≠ (Nat.digitChar n).toUpper) = true := by decide
  have hdigit := List.all_eq_true.mp hdigits ch hch
  rw [Bool.and_eq_true, decide_eq_true_iff, List.all_eq_true] at hdigit
  rcases hdigit with ⟨hpercent, hhex⟩
  have hupper : ∀ n < 16, ch ≠ (Nat.digitChar n).toUpper := fun n hn =>
    of_decide_eq_true (hhex n (List.mem_range.mpr hn))
  have hbyte := byte.toNat_lt
  simp only [percentByte, List.mem_cons, List.not_mem_nil, or_false, not_or]
  exact ⟨hpercent, hupper _ (by omega), hupper _ (by omega)⟩

/-- and neither has an encoded character. -/
theorem notMem_encodeChar (ch' : Char) (hch : ch ∈ separators) : ch ∉ encodeChar ch' := by
  have hall : (separators.all fun sep => isUnreserved sep = false) = true := by decide
  have hreserved := of_decide_eq_true (List.all_eq_true.mp hall ch hch)
  unfold encodeChar
  split
  · rename_i hunreserved
    intro hmem
    cases List.mem_singleton.mp hmem
    rw [hreserved] at hunreserved
    cases hunreserved
  · intro hmem
    rcases List.mem_flatMap.mp hmem with ⟨byte, _, hbyte⟩
    exact notMem_percentByte byte hch hbyte

/-- Nothing in an encoded text separates texts. -/
theorem notMem_encodeURIComponent (str : String) (hch : ch ∈ separators) :
    ch ∉ (encodeURIComponent str).toList := by
  rw [encodeURIComponent, String.toList_ofList]
  intro hmem
  rcases List.mem_flatMap.mp hmem with ⟨ch', _, hmem⟩
  exact notMem_encodeChar ch' hch hmem

/-- So an encoded text can be found again in an address. -/
theorem clean_encodeURIComponent (str : String) : Clean (encodeURIComponent str) :=
  ⟨notMem_encodeURIComponent str (by decide), notMem_encodeURIComponent str (by decide),
    notMem_encodeURIComponent str (by decide)⟩

/-- An encoded character is longer than its bytes, but for the characters left as they are. -/
theorem length_encodeChar (ch : Char) :
    (String.utf8EncodeChar ch).length ≤ (encodeChar ch).length ∧
      (isUnreserved ch = false →
        (String.utf8EncodeChar ch).length < (encodeChar ch).length) := by
  unfold encodeChar
  by_cases h : isUnreserved ch = true
  · rw [if_pos h, (utf8EncodeChar_of_isUnreserved h).1, h]
    exact ⟨Nat.le_refl 1, fun hfalse => absurd hfalse (by decide)⟩
  · have hlen : ((String.utf8EncodeChar ch).flatMap percentByte).length =
        3 * (String.utf8EncodeChar ch).length := by
      simp [List.length_flatMap, percentByte, Nat.mul_comm]
    have hpos := ch.utf8Size_pos
    rw [← String.length_utf8EncodeChar] at hpos
    rw [if_neg h, hlen]
    exact ⟨by omega, fun _ => by omega⟩

/-- The lengths of whole texts, likewise. -/
theorem length_flatMap_encodeChar (chars : List Char) :
    (chars.flatMap String.utf8EncodeChar).length ≤ (chars.flatMap encodeChar).length ∧
      ((∃ ch ∈ chars, isUnreserved ch = false) →
        (chars.flatMap String.utf8EncodeChar).length < (chars.flatMap encodeChar).length) := by
  induction chars with
  | nil => simp
  | cons ch chars ih =>
    rcases length_encodeChar ch with ⟨hle, hlt⟩
    rw [List.flatMap_cons, List.flatMap_cons, List.length_append, List.length_append]
    refine ⟨Nat.add_le_add hle ih.1, ?_⟩
    rintro ⟨ch', hmem, hreserved⟩
    rcases List.mem_cons.mp hmem with rfl | hmem
    · exact Nat.add_lt_add_of_lt_of_le (hlt hreserved) ih.1
    · exact Nat.add_lt_add_of_le_of_lt hle (ih.2 ⟨ch', hmem, hreserved⟩)

/-- An encoded text is the text if and only if there is nothing to encode. -/
theorem encodeURIComponent_eq_iff (str : String) :
    encodeURIComponent str = utf8Text str ↔ ∀ ch ∈ str.toList, isUnreserved ch = true := by
  constructor
  · intro heq ch hmem
    by_contra hreserved
    have hlt := (length_flatMap_encodeChar str.toList).2
      ⟨ch, hmem, Bool.eq_false_iff.mpr hreserved⟩
    have hlen := congrArg (fun text => text.toList.length) heq
    simp only [encodeURIComponent, utf8Text, String.toList_ofList, ← List.map_flatMap,
      List.length_map] at hlen
    omega
  · intro h
    rw [encodeURIComponent, utf8Text]
    congr 1
    apply List.flatMap_congr
    intro ch hmem
    rcases utf8EncodeChar_of_isUnreserved (h ch hmem) with ⟨hbytes, hchar⟩
    rw [encodeChar, if_pos (h ch hmem), hbytes, List.map_singleton, hchar]

end Encoding

/-! ## Agreement -/

section Agree

variable {k v : String}

/-- The server gets the encoded key and value of a put, -/
theorem received_put (hk : k ≠ "") (hv : v ≠ "") (rest : String) :
    received .put k v rest "key" = some (encodeURIComponent k) ∧
      received .put k v rest "value" = some (encodeURIComponent v) := by
  have hkey := clean_encodeURIComponent k
  have hvalue := clean_encodeURIComponent v
  have hfetch : executeOp .put k v =
      some (putUrl (encodeURIComponent k) (encodeURIComponent v)) := by
    rw [executeOp, if_neg (not_or.mpr ⟨hk, hv⟩)]
  rw [received, received, hfetch, Option.map_some, Option.map_some,
    requestPath_putUrl hkey hvalue, putUrl_key hkey, putUrl_value hkey hvalue]
  exact ⟨rfl, rfl⟩

/-- the encoded key of a get, -/
theorem received_get (hk : k ≠ "") (v rest : String) :
    received .get k v rest "key" = some (encodeURIComponent k) := by
  have hkey := clean_encodeURIComponent k
  rw [received, executeOp, if_neg hk, Option.map_some, requestPath_getUrl hkey, getUrl_key hkey]

/-- and that of a deletion. -/
theorem received_del (hk : k ≠ "") (v rest : String) :
    received .del k v rest "key" = some (encodeURIComponent k) := by
  have hkey := clean_encodeURIComponent k
  rw [received, executeOp, if_neg hk, Option.map_some, requestPath_removeUrl hkey,
    removeUrl_key hkey]

/-- The server gets what was typed if and only if all characters of it are unreserved. -/
theorem agree_iff (k v : String) (hk : k ≠ "") (hv : v ≠ "") :
    Agree k v ↔
      (∀ ch ∈ k.toList, isUnreserved ch = true) ∧ ∀ ch ∈ v.toList, isUnreserved ch = true := by
  rw [← encodeURIComponent_eq_iff, ← encodeURIComponent_eq_iff]
  constructor
  · intro h
    have hkey := (received_put hk hv "").1.symm.trans (h.putKey "")
    have hvalue := (received_put hk hv "").2.symm.trans (h.putValue "")
    exact ⟨Option.some.inj hkey, Option.some.inj hvalue⟩
  · rintro ⟨hkey, hvalue⟩
    refine ⟨fun rest => ?_, fun rest => ?_, fun rest => ?_, fun rest => ?_⟩
    · rw [(received_put hk hv rest).1, hkey]
    · rw [(received_put hk hv rest).2, hvalue]
    · rw [received_get hk, hkey]
    · rw [received_del hk, hkey]

/-- There is nothing to encode in "apple" and "500". -/
theorem agree_iff_apple : Agree "apple" "500" :=
  (agree_iff "apple" "500" (by decide) (by decide)).mpr
    ⟨List.all_eq_true.mp (by decide), List.all_eq_true.mp (by decide)⟩

/-- The key "a b" arrives as "a%20b". -/
theorem agree_fails : ¬ Agree "a b" "1" := by
  intro h
  have hkey := (received_get (k := "a b") (by decide) "1" "").symm.trans (h.getKey "")
  revert hkey
  decide

end Agree

end LruCache
