import PriceArchive.Json.Reader
import PriceArchive.Json.Text
import PriceArchive.Proofs.Text.Digits

namespace PriceArchive

namespace Json

section Strings

variable {acc rest : List Char}

/-- A control character is written in four digits that denote it. -/
theorem hexChars_control : ∀ n < 0x20,
    hexChars n = ['0', '0', Nat.digitChar (n / 16), Nat.digitChar (n % 16)] ∧
      hexUnit? '0' '0' (Nat.digitChar (n / 16)) (Nat.digitChar (n % 16)) = some n := by
  decide +kernel

/-- A character is read from what is written for it. -/
theorem readString_escapeChar (c : Char) (acc rest : List Char) :
    readString acc (escapeChar c ++ rest) = readString (c :: acc) rest := by
  unfold escapeChar
  -- The escapes of one letter.
  iterate 7
    split
    · rename_i h
      subst h
      rfl
  split
  · rename_i hcontrol
    obtain ⟨hchars, hunit⟩ := hexChars_control c.toNat hcontrol
    rw [hchars]
    simp only [List.cons_append, List.nil_append, readString, hunit, Option.bind_eq_bind,
      Option.bind_some]
    rw [if_neg (by omega), if_neg (by omega), Char.ofNat_toNat]
  · rename_i hquote hbackslash _ _ _ _ _ hcontrol
    rw [List.singleton_append, readString.eq_def acc (c :: rest)]
    split
    · rename_i heq
      cases heq
      exact absurd rfl hquote
    · rename_i heq
      cases heq
      exact absurd rfl hbackslash
    · rename_i heq
      cases heq
      exact absurd rfl hbackslash
    · rename_i heq
      cases heq
      exact if_neg hcontrol
    · rename_i heq
      cases heq

theorem readString_flatMap (cs acc rest : List Char) :
    readString acc (cs.flatMap escapeChar ++ '"' :: rest) =
      some (String.ofList (acc.reverse ++ cs), rest) := by
  induction cs generalizing acc with
  | nil =>
    rw [List.append_nil]
    rfl
  | cons c cs ih =>
    rw [List.flatMap_cons, List.append_assoc, readString_escapeChar, ih, List.reverse_cons,
      List.append_assoc, List.singleton_append]

/-- A text is read from its characters up to the closing quotation mark. -/
theorem readString_escaped (s : String) (rest : List Char) :
    readString [] (s.toList.flatMap escapeChar ++ '"' :: rest) = some (s, rest) := by
  rw [readString_flatMap, List.reverse_nil, List.nil_append, String.ofList_toList]

theorem toList_quote (s : String) :
    (quote s).toList = '"' :: (s.toList.flatMap escapeChar ++ ['"']) := by
  simp [quote]

end Strings

section Numbers

variable {n : Nat} {rest : List Char}

/-- What may follow a value inside another one, or nothing. -/
def Ends (cs : List Char) : Prop := ∀ c ∈ cs.head?, c = ',' ∨ c = ']' ∨ c = '\x7d'

theorem ends_cons {c : Char} (h : c = ',' ∨ c = ']' ∨ c = '\x7d') (cs : List Char) : Ends (c :: cs) := by
  intro d hd
  cases hd
  exact h

theorem Ends.noDigit (h : Ends rest) : NoDigit rest := by
  intro c hc
  rcases h c hc with rfl | rfl | rfl <;> rfl

/-- A number begins with a digit. -/
theorem exists_cons_toDigits (n : Nat) :
    ∃ c cs, Nat.toDigits 10 n = c :: cs ∧ c.isDigit = true := by
  obtain ⟨c, cs, hcons⟩ := List.exists_cons_of_ne_nil (Nat.toDigits_ne_nil (n := n) (b := 10))
  have hc : c ∈ Nat.toDigits 10 n := by rw [hcons]; exact List.mem_cons_self
  exact ⟨c, cs, hcons, Nat.isDigit_of_mem_toDigits (by decide) (by decide) hc⟩

/-- A positive number does not begin with a zero. -/
theorem head?_toDigits_ne (hn : 0 < n) : (Nat.toDigits 10 n).head? ≠ some '0' := by
  induction n using Nat.strongRecOn with
  | ind n ih =>
    rw [Nat.toDigits_eq_if (by decide)]
    split
    · rename_i hlt
      have hdigits : ∀ d < 10, 0 < d → [Nat.digitChar d].head? ≠ some '0' := by decide
      exact hdigits n hlt hn
    · have hhead := ih (n / 10) (by omega) (by omega)
      obtain ⟨c, cs, hcons, -⟩ := exists_cons_toDigits (n / 10)
      rw [hcons] at hhead ⊢
      exact hhead

/-- Digits that denote a number of 64 bits are all read. -/
theorem leadingDigits_eq {cs : List Char} (h : foldDigits n cs ≤ maxWord) :
    leadingDigits n cs = (foldDigits n cs, 0) := by
  induction cs generalizing n with
  | nil => rfl
  | cons c cs ih =>
    have hle := le_foldDigits (n * 10 + (digit? c).getD 0) cs
    rw [foldDigits_cons] at h
    rw [leadingDigits, foldDigits_cons, if_pos (Nat.le_trans hle h), ih h]

theorem readUnsigned_toDigits (negative : Bool) (hn : n ≤ maxWord) (hends : Ends rest) :
    readUnsigned negative (Nat.toDigits 10 n ++ rest) = some (integerOf negative n, rest) := by
  have hread := takeAllDigits_append (fun c => Nat.isDigit_of_mem_toDigits (by decide) (by decide))
    (Nat.toDigits_ne_nil (n := n) (b := 10)) hends.noDigit
  have hzero : ¬ ((Nat.toDigits 10 n).length ≠ 1 ∧ (Nat.toDigits 10 n).head? = some '0') := by
    rintro ⟨hlength, hhead⟩
    rcases Nat.eq_zero_or_pos n with rfl | hpos
    · exact hlength rfl
    · exact head?_toDigits_ne hpos hhead
  have hdigits : leadingDigits 0 (Nat.toDigits 10 n) = (n, 0) := by
    rw [leadingDigits_eq (by rwa [foldDigits_toDigits]), foldDigits_toDigits]
  simp only [readUnsigned, hread, Option.bind_eq_bind, Option.bind_some]
  rw [if_neg hzero, hdigits]
  have hmark : ∀ c cs, rest = c :: cs → c ≠ '.' ∧ c ≠ 'e' ∧ c ≠ 'E' := by
    intro c cs heq
    rcases hends c (by rw [heq]; rfl) with rfl | rfl | rfl <;> decide
  split
  · exact absurd rfl (hmark _ _ rfl).1
  · exact absurd rfl (hmark _ _ rfl).2.1
  · exact absurd rfl (hmark _ _ rfl).2.2
  · exact if_pos rfl

/-- The integers that are read as integers: of 64 bits, with a sign or without. -/
def IsWord (n : Int) : Prop := -(Nat.pow 2 63 : Int) ≤ n ∧ n ≤ maxWord

theorem readNumber_toDigits (hn : n ≤ maxWord) (hends : Ends rest) :
    readNumber (Nat.toDigits 10 n ++ rest) = some (.integer n, rest) := by
  have hread := readUnsigned_toDigits false hn hends
  obtain ⟨c, cs, hcons, hdigit⟩ := exists_cons_toDigits n
  rw [hcons, List.cons_append] at hread ⊢
  rw [readNumber.eq_def]
  split
  · rename_i heq
    cases heq
    exact absurd hdigit (by decide)
  · exact hread

theorem toList_toString_ofNat (n : Nat) : (toString (Int.ofNat n)).toList = Nat.toDigits 10 n := by
  change n.repr.toList = _
  rw [Nat.repr_eq_ofList_toDigits, String.toList_ofList]

theorem toList_toString_negSucc (n : Nat) :
    (toString (Int.negSucc n)).toList = '-' :: Nat.toDigits 10 (n + 1) := by
  change ("-" ++ (n + 1).repr).toList = _
  simp [Nat.repr_eq_ofList_toDigits]

/-- An integer of 64 bits is read from its digits, with a minus sign or without. -/
theorem readNumber_toString {i : Int} (hi : IsWord i) (hends : Ends rest) :
    readNumber ((toString i).toList ++ rest) = some (.integer i, rest) := by
  obtain ⟨hmin, hmax⟩ := hi
  cases i with
  | ofNat n =>
    rw [toList_toString_ofNat]
    exact readNumber_toDigits (Int.ofNat_le.mp hmax) hends
  | negSucc n =>
    have hsize : ¬ (n + 1 = 0 ∨ Nat.pow 2 63 < n + 1) := by omega
    have hword : n + 1 ≤ maxWord := by
      have hdouble : maxWord = Nat.pow 2 63 + (Nat.pow 2 63 - 1) := by decide
      omega
    rw [toList_toString_negSucc]
    change readUnsigned true (Nat.toDigits 10 (n + 1) ++ rest) = _
    rw [readUnsigned_toDigits true hword hends, integerOf, if_pos rfl, if_neg hsize]
    rfl

end Numbers

section Objects

variable {fields : List (String × Json)}

theorem setField_of_not_mem {name : String} (value : Json) (h : name ∉ fields.map Prod.fst) :
    setField name value fields = fields ++ [(name, value)] := by
  induction fields with
  | nil => rfl
  | cons field rest ih =>
    obtain ⟨key, old⟩ := field
    rw [List.map_cons, List.mem_cons, not_or] at h
    rw [setField, if_neg (Ne.symm h.1), ih h.2, List.cons_append]

/-- Fields with names of their own all stay. -/
theorem distinctFields_of_nodup (h : (fields.map Prod.fst).Nodup) : distinctFields fields = fields := by
  suffices hall : ∀ acc : List (String × Json), ((acc ++ fields).map Prod.fst).Nodup →
      fields.foldl (fun acc field => setField field.1 field.2 acc) acc = acc ++ fields from
    hall [] h
  induction fields with
  | nil => exact fun acc _ => (List.append_nil acc).symm
  | cons field rest ih =>
    intro acc hacc
    have hfresh : field.1 ∉ acc.map Prod.fst := by
      rw [List.map_append, List.nodup_append] at hacc
      exact fun hmem => hacc.2.2 _ hmem _ List.mem_cons_self rfl
    rw [List.foldl_cons, setField_of_not_mem field.2 hfresh, ih (List.nodup_cons.mp h).2,
      List.append_assoc]
    · rfl
    · rw [List.append_assoc]
      exact hacc

end Objects

/-- The values whose text denotes them: numbers are integers of 64 bits, and no object has a name
twice. -/
inductive Writable : Json → Prop where
  | null : Writable null
  | bool (b : Bool) : Writable (bool b)
  | integer {n : Int} (h : IsWord n) : Writable (ofInt n)
  | string (s : String) : Writable (string s)
  | array {items : List Json} (h : ∀ j ∈ items, Writable j) : Writable (array items)
  | object {fields : List (String × Json)} (hnames : (fields.map Prod.fst).Nodup)
    (h : ∀ field ∈ fields, Writable field.2) : Writable (object fields)

/-- Where a value ends, its text is read as it. Every step takes a character, and each takes two steps
at most. -/
def ReadsBack (j : Json) : Prop :=
  ∀ fuel rest, 2 * j.toText.toList.length ≤ fuel → Ends rest →
    readValue fuel (j.toText.toList ++ rest) = some (j, rest)

section Values

variable {rest : List Char}

theorem dropSpace_cons {c : Char} (h : c.isWhitespace = false) (cs : List Char) :
    dropSpace (c :: cs) = c :: cs :=
  List.dropWhile_cons_of_neg (by rw [h]; exact Bool.false_ne_true)

/-- An integer begins with a digit or the minus sign. -/
theorem exists_cons_of_integer (i : Int) :
    ∃ c cs, (ofInt i).toText.toList = c :: cs ∧ (c.isDigit = true ∨ c = '-') := by
  have htext : (ofInt i).toText = toString i := rfl
  rw [htext]
  cases i with
  | ofNat n =>
    obtain ⟨c, cs, hcons, hdigit⟩ := exists_cons_toDigits n
    exact ⟨c, cs, (toList_toString_ofNat n).trans hcons, .inl hdigit⟩
  | negSucc n => exact ⟨'-', _, toList_toString_negSucc n, .inr rfl⟩

theorem isWhitespace_of_isDigit {c : Char} (h : c.isDigit = true) : c.isWhitespace = false := by
  cases hspace : c.isWhitespace with
  | false => rfl
  | true => exact absurd (isBlank_of_isWhitespace hspace) (by rw [isBlank_of_isDigit h]; decide)

theorem toList_array (items : List Json) :
    (array items).toText.toList = '[' :: ((itemsText items).toList ++ [']']) := by
  simp [toText]

theorem toList_object (fields : List (String × Json)) :
    (object fields).toText.toList = '\x7b' :: ((fieldsText fields).toList ++ ['\x7d']) := by
  simp [toText]

/-- The text of a value begins with a character that is no white space and does not end an array. -/
theorem exists_cons_of_writable {j : Json} (h : Writable j) :
    ∃ c cs, j.toText.toList = c :: cs ∧ c.isWhitespace = false ∧ c ≠ ']' := by
  cases h with
  | null => exact ⟨'n', _, rfl, rfl, by decide⟩
  | bool b =>
    cases b with
    | false => exact ⟨'f', _, rfl, rfl, by decide⟩
    | true => exact ⟨'t', _, rfl, rfl, by decide⟩
  | @integer i _ =>
    obtain ⟨c, cs, hcons, hc⟩ := exists_cons_of_integer i
    refine ⟨c, cs, hcons, ?_⟩
    rcases hc with hdigit | rfl
    · refine ⟨isWhitespace_of_isDigit hdigit, ?_⟩
      rintro rfl
      cases hdigit
    · decide
  | string s => exact ⟨'"', _, toList_quote s, rfl, by decide⟩
  | @array items _ => exact ⟨'[', _, toList_array items, rfl, by decide⟩
  | @object fields _ _ => exact ⟨'\x7b', _, toList_object fields, rfl, by decide⟩

theorem readsBack_null : ReadsBack null := by
  intro fuel rest hfuel _
  change 8 ≤ fuel at hfuel
  obtain ⟨k, rfl⟩ := Nat.exists_eq_add_of_le' (Nat.le_trans (by decide : 1 ≤ 8) hfuel)
  rfl

theorem readsBack_bool (b : Bool) : ReadsBack (bool b) := by
  intro fuel rest hfuel _
  cases b with
  | false =>
    change 10 ≤ fuel at hfuel
    obtain ⟨k, rfl⟩ := Nat.exists_eq_add_of_le' (Nat.le_trans (by decide : 1 ≤ 10) hfuel)
    rfl
  | true =>
    change 8 ≤ fuel at hfuel
    obtain ⟨k, rfl⟩ := Nat.exists_eq_add_of_le' (Nat.le_trans (by decide : 1 ≤ 8) hfuel)
    rfl

theorem readsBack_string (s : String) : ReadsBack (string s) := by
  intro fuel rest hfuel _
  have htext : (string s).toText = quote s := rfl
  rw [htext, toList_quote] at hfuel ⊢
  rw [List.length_cons] at hfuel
  obtain ⟨k, rfl⟩ := Nat.exists_eq_add_of_le' (show 1 ≤ fuel by omega)
  rw [readValue, List.cons_append, dropSpace_cons rfl, List.append_assoc]
  change (readString [] (s.toList.flatMap escapeChar ++ '"' :: rest)).map _ = _
  rw [readString_escaped]
  rfl

theorem readsBack_integer {i : Int} (hi : IsWord i) : ReadsBack (ofInt i) := by
  intro fuel rest hfuel hends
  have hread : readNumber ((ofInt i).toText.toList ++ rest) = some (.integer i, rest) :=
    readNumber_toString hi hends
  obtain ⟨c, cs, hcons, hc⟩ := exists_cons_of_integer i
  have hspace : c.isWhitespace = false := by
    rcases hc with hdigit | rfl
    · exact isWhitespace_of_isDigit hdigit
    · rfl
  rw [hcons] at hfuel hread ⊢
  rw [List.length_cons] at hfuel
  obtain ⟨k, rfl⟩ := Nat.exists_eq_add_of_le' (show 1 ≤ fuel by omega)
  rw [List.cons_append] at hread ⊢
  rw [readValue, dropSpace_cons hspace]
  have hletter : ∀ d : Char, d.isDigit = false → d ≠ '-' → c ≠ d := by
    rintro d hd hminus rfl
    rcases hc with hdigit | rfl
    · rw [hd] at hdigit
      cases hdigit
    · exact hminus rfl
  split
  · rename_i heq
    exact absurd (List.cons.inj heq).1 (hletter 'n' rfl (by decide))
  · rename_i heq
    exact absurd (List.cons.inj heq).1 (hletter 't' rfl (by decide))
  · rename_i heq
    exact absurd (List.cons.inj heq).1 (hletter 'f' rfl (by decide))
  · rename_i heq
    exact absurd (List.cons.inj heq).1 (hletter '"' rfl (by decide))
  · rename_i heq
    exact absurd (List.cons.inj heq).1 (hletter '[' rfl (by decide))
  · rename_i heq
    exact absurd (List.cons.inj heq).1 (hletter '\x7b' rfl (by decide))
  · rw [hread]
    rfl

theorem toList_itemsText_cons (j : Json) {others : List Json} (h : others ≠ []) :
    (itemsText (j :: others)).toList = j.toText.toList ++ ',' :: (itemsText others).toList := by
  obtain ⟨j', others, rfl⟩ := List.exists_cons_of_ne_nil h
  simp [itemsText]

/-- The items of an array are read up to its end. -/
theorem readItems_itemsText {items : List Json} (hne : items ≠ []) (h : ∀ j ∈ items, ReadsBack j)
    (fuel : Nat) (hfuel : 2 * (itemsText items).toList.length + 1 ≤ fuel) (rest : List Char) :
    readItems fuel ((itemsText items).toList ++ ']' :: rest) = some (items, rest) := by
  induction items generalizing fuel with
  | nil => exact absurd rfl hne
  | cons j others ih =>
    obtain ⟨hj, hothers⟩ := List.forall_mem_cons.mp h
    obtain ⟨k, rfl⟩ := Nat.exists_eq_add_of_le' (show 1 ≤ fuel by omega)
    cases others with
    | nil =>
      rw [itemsText] at hfuel ⊢
      rw [readItems, hj k (']' :: rest) (by omega) (ends_cons (by decide) rest)]
      rfl
    | cons j' others =>
      have htext := toList_itemsText_cons j (List.cons_ne_nil j' others)
      rw [htext, List.length_append, List.length_cons] at hfuel
      have hrest := ih (List.cons_ne_nil _ _) hothers k (by omega)
      rw [htext, List.append_assoc, List.cons_append, readItems,
        hj k _ (by omega) (ends_cons (by decide) _)]
      simp only [Option.bind_eq_bind, Option.bind_some, dropSpace_cons (show ','.isWhitespace = false from rfl),
        hrest]
      rfl

theorem readsBack_array {items : List Json} (hwritable : ∀ j ∈ items, Writable j)
    (h : ∀ j ∈ items, ReadsBack j) : ReadsBack (array items) := by
  intro fuel rest hfuel _
  rw [toList_array] at hfuel ⊢
  rw [List.length_cons, List.length_append, List.length_singleton] at hfuel
  obtain ⟨k, rfl⟩ := Nat.exists_eq_add_of_le' (show 1 ≤ fuel by omega)
  rw [readValue, List.cons_append, dropSpace_cons rfl, List.append_assoc, List.singleton_append]
  cases items with
  | nil => rfl
  | cons j others =>
    have hread := readItems_itemsText (List.cons_ne_nil j others) h k (by omega) rest
    obtain ⟨c, cs, hcons, hspace, hend⟩ := exists_cons_of_writable (hwritable j List.mem_cons_self)
    have hbegin : ∃ cs', (itemsText (j :: others)).toList = c :: cs' := by
      cases others with
      | nil => exact ⟨cs, hcons⟩
      | cons j' others =>
        rw [toList_itemsText_cons j (List.cons_ne_nil j' others), hcons]
        exact ⟨_, rfl⟩
    obtain ⟨cs', hbegin⟩ := hbegin
    rw [hbegin, List.cons_append] at hread ⊢
    simp only [dropSpace_cons hspace]
    split
    · rename_i heq
      exact absurd (List.cons.inj heq).1 hend
    · rw [hread]
      rfl

theorem toList_fieldsText_cons (name : String) (j : Json) {others : List (String × Json)}
    (h : others ≠ []) : (fieldsText ((name, j) :: others)).toList =
      (quote name).toList ++ ':' :: (j.toText.toList ++ ',' :: (fieldsText others).toList) := by
  obtain ⟨field, others, rfl⟩ := List.exists_cons_of_ne_nil h
  simp [fieldsText]

theorem toList_fieldsText_singleton (name : String) (j : Json) :
    (fieldsText [(name, j)]).toList = (quote name).toList ++ ':' :: j.toText.toList := by
  simp [fieldsText]

/-- The last field of an object is read. -/
theorem readFields_last (name : String) {j : Json} {fuel : Nat} {rest : List Char}
    (hvalue : readValue fuel (j.toText.toList ++ '\x7d' :: rest) = some (j, '\x7d' :: rest)) :
    readFields (fuel + 1) ((quote name).toList ++ ':' :: (j.toText.toList ++ '\x7d' :: rest)) =
      some ([(name, j)], rest) := by
  rw [toList_quote, readFields, List.cons_append, dropSpace_cons rfl, List.append_assoc,
    List.singleton_append]
  simp only [readString_escaped, Option.bind_eq_bind, Option.bind_some, hvalue,
    dropSpace_cons (show ':'.isWhitespace = false from rfl),
    dropSpace_cons (show '\x7d'.isWhitespace = false from rfl)]

/-- A field before others is read, and then they are. -/
theorem readFields_cons (name : String) {j : Json} {fuel : Nat} {tail rest : List Char}
    {others : List (String × Json)}
    (hvalue : readValue fuel (j.toText.toList ++ ',' :: tail) = some (j, ',' :: tail))
    (hothers : readFields fuel tail = some (others, rest)) :
    readFields (fuel + 1) ((quote name).toList ++ ':' :: (j.toText.toList ++ ',' :: tail)) =
      some ((name, j) :: others, rest) := by
  rw [toList_quote, readFields, List.cons_append, dropSpace_cons rfl, List.append_assoc,
    List.singleton_append]
  simp only [readString_escaped, Option.bind_eq_bind, Option.bind_some, hvalue,
    dropSpace_cons (show ':'.isWhitespace = false from rfl),
    dropSpace_cons (show ','.isWhitespace = false from rfl), hothers, Option.pure_def]

/-- The fields of an object are read up to its end. -/
theorem readFields_fieldsText {fields : List (String × Json)} (hne : fields ≠ [])
    (h : ∀ field ∈ fields, ReadsBack field.2) (fuel : Nat)
    (hfuel : 2 * (fieldsText fields).toList.length + 1 ≤ fuel) (rest : List Char) :
    readFields fuel ((fieldsText fields).toList ++ '\x7d' :: rest) = some (fields, rest) := by
  induction fields generalizing fuel with
  | nil => exact absurd rfl hne
  | cons field others ih =>
    obtain ⟨name, j⟩ := field
    obtain ⟨hj, hothers⟩ := List.forall_mem_cons.mp h
    obtain ⟨k, rfl⟩ := Nat.exists_eq_add_of_le' (show 1 ≤ fuel by omega)
    cases others with
    | nil =>
      rw [toList_fieldsText_singleton, List.length_append, List.length_cons] at hfuel
      have hvalue := hj k ('\x7d' :: rest) (by dsimp only; omega) (ends_cons (by decide) rest)
      rw [toList_fieldsText_singleton, List.append_assoc, List.cons_append, readFields_last name hvalue]
    | cons field others =>
      have htext := toList_fieldsText_cons name j (List.cons_ne_nil field others)
      rw [htext, List.length_append, List.length_cons, List.length_append, List.length_cons] at hfuel
      have hvalue := hj k (',' :: ((fieldsText (field :: others)).toList ++ '\x7d' :: rest))
        (by dsimp only; omega) (ends_cons (by decide) _)
      have hrest := ih (List.cons_ne_nil field others) hothers k (by omega)
      rw [htext, List.append_assoc, List.cons_append, List.append_assoc, List.cons_append,
        readFields_cons name hvalue hrest]

theorem readsBack_object {fields : List (String × Json)} (hnames : (fields.map Prod.fst).Nodup)
    (h : ∀ field ∈ fields, ReadsBack field.2) : ReadsBack (object fields) := by
  intro fuel rest hfuel _
  rw [toList_object] at hfuel ⊢
  rw [List.length_cons, List.length_append, List.length_singleton] at hfuel
  obtain ⟨k, rfl⟩ := Nat.exists_eq_add_of_le' (show 1 ≤ fuel by omega)
  rw [readValue, List.cons_append, dropSpace_cons rfl, List.append_assoc, List.singleton_append]
  cases fields with
  | nil => rfl
  | cons field others =>
    have hread := readFields_fieldsText (List.cons_ne_nil field others) h k (by omega) rest
    obtain ⟨name, j⟩ := field
    have hbegin : ∃ cs, (fieldsText ((name, j) :: others)).toList = '"' :: cs := by
      cases others with
      | nil =>
        rw [toList_fieldsText_singleton, toList_quote]
        exact ⟨_, rfl⟩
      | cons field others =>
        rw [toList_fieldsText_cons name j (List.cons_ne_nil field others), toList_quote]
        exact ⟨_, rfl⟩
    obtain ⟨cs, hbegin⟩ := hbegin
    rw [hbegin, List.cons_append] at hread ⊢
    simp only [dropSpace_cons (show '"'.isWhitespace = false from rfl), hread, Option.map_some,
      distinctFields_of_nodup hnames]
    rfl

/-- The text of a value is read as it, wherever it ends. -/
theorem Writable.readsBack {j : Json} (h : Writable j) : ReadsBack j := by
  induction h with
  | null => exact readsBack_null
  | bool b => exact readsBack_bool b
  | integer hi => exact readsBack_integer hi
  | string s => exact readsBack_string s
  | array hitems ih => exact readsBack_array hitems ih
  | object hnames _ ih => exact readsBack_object hnames ih

/-- The text of a value reads back as it. -/
theorem Writable.read?_toText {j : Json} (h : Writable j) : read? j.toText = some j := by
  have hread := h.readsBack (2 * j.toText.toList.length + 2) [] (by omega) nofun
  rw [List.append_nil] at hread
  rw [read?, hread]
  rfl

end Values

end Json

end PriceArchive
