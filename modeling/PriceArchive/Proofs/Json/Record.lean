import PriceArchive.Json.Record
import PriceArchive.Proofs.Calendar.Text
import PriceArchive.Proofs.Decimal.Reading
import PriceArchive.Proofs.Json.Text

namespace PriceArchive

namespace Json

variable {α : Type} {toJson : α → Json} {ofJson? : Json → Option α} {asRead : α → α}

/-- Decimals and times that have forms of their own in JSON: no zero with a minus sign, and no leap second
of a second that does not end its minute. -/
def Distinct (decimals : List Decimal) (times : List Instant) : Prop :=
  (∀ d ∈ decimals, ¬ d.IsNegativeZero) ∧ ∀ t ∈ times, ¬ t.InStrayLeapSecond

/-- The JSON form of every value is read, as `asRead` says, and so is the text of that form. This gives the
value again exactly if the decimals and the times in it have forms of their own. -/
structure RoundTrips (toJson : α → Json) (ofJson? : Json → Option α) (asRead : α → α)
    (decimals : α → List Decimal) (times : α → List Instant) : Prop where
  value : ∀ x, ofJson? (toJson x) = some (asRead x)
  text : ∀ x, (read? (toJson x).toText).bind ofJson? = some (asRead x)
  same_iff : ∀ x, asRead x = x ↔ Distinct (decimals x) (times x)

/-- The JSON form of every value is read as `asRead` says and can be written as text. -/
structure Codec (toJson : α → Json) (ofJson? : Json → Option α) (asRead : α → α) : Prop where
  value : ∀ x, ofJson? (toJson x) = some (asRead x)
  writable : ∀ x, Writable (toJson x)

theorem Codec.roundTrips {decimals : α → List Decimal} {times : α → List Instant}
    (h : Codec toJson ofJson? asRead) (hsame : ∀ x, asRead x = x ↔ Distinct (decimals x) (times x)) :
    RoundTrips toJson ofJson? asRead decimals times where
  value := h.value
  text x := by rw [(h.writable x).read?_toText, Option.bind_some, h.value]
  same_iff := hsame

section Scalars

theorem codec_string : Codec string string? id := ⟨fun _ => rfl, .string⟩

theorem codec_bool : Codec bool bool? id := ⟨fun _ => rfl, .bool⟩

theorem mapM_string? (xs : List String) : (xs.map string).mapM string? = some xs := by
  induction xs with
  | nil => rfl
  | cons x xs ih =>
    rw [List.map_cons, List.mapM_cons, ih]
    rfl

theorem codec_strings : Codec ofStrings strings? id where
  value := mapM_string?
  writable xs := .array fun j hj => by
    obtain ⟨s, -, rfl⟩ := List.mem_map.mp hj
    exact .string s

theorem codec_decimal : Codec ofDecimal decimal? Decimal.asRead where
  value d := by
    change (Decimal.readEither d.toText).toOption = some d.asRead
    rw [Decimal.readEither, Decimal.read_toText]
    rfl
  writable d := .string d.toText

theorem codec_instant : Codec ofInstant instant? Instant.asRead where
  value t := by
    rw [instant?, ofInstant, string?, Option.bind_eq_bind, Option.bind_some, Instant.read?_toText]
  writable t := .string t.toText

theorem codec_volume : Codec ofVolume volume? id where
  value v := by
    have hword : 0 ≤ (v.toNat : Int) ∧ (v.toNat : Int).toNat < UInt64.size :=
      ⟨Int.natCast_nonneg _, v.toNat_lt_size⟩
    have hread : volume? (ofVolume v) =
        if 0 ≤ (v.toNat : Int) ∧ (v.toNat : Int).toNat < UInt64.size then
          some (UInt64.ofNat (v.toNat : Int).toNat)
        else none := rfl
    rw [hread, if_pos hword, Int.toNat_natCast, UInt64.ofNat_toNat]
    rfl
  writable v := by
    refine .integer ⟨by omega, ?_⟩
    rw [Int.ofNat_le]
    exact Nat.le_sub_one_of_lt v.toNat_lt

theorem codec_signedWord : Codec (fun l : Int64 => ofInt l.toInt) signedWord? id where
  value l := by
    have hread : signedWord? (ofInt l.toInt) =
        if Int64.minValue.toInt ≤ l.toInt ∧ l.toInt ≤ Int64.maxValue.toInt then
          some (Int64.ofInt l.toInt)
        else none := rfl
    rw [hread, if_pos ⟨l.minValue_le_toInt, l.toInt_le⟩, Int64.ofInt_toInt]
    rfl
  writable l := by
    have hmax : (2 ^ 63 : Int) ≤ maxWord := by decide
    exact .integer ⟨l.le_toInt, Int.le_trans (Int.le_of_lt l.toInt_lt) hmax⟩

end Scalars

section Records

variable {toFields : α → List (String × Json)} {ofFields? : Fields → Option α} {fields : Fields}
  {written : List (String × Json)} {name : String}

/-- The fields that were written are there under their names. -/
def Fields.Hold (fields : Fields) (written : List (String × Json)) : Prop :=
  ∀ field ∈ written, fields field.1 = some field.2

theorem Fields.hold_cons {value : Json} :
    fields.Hold ((name, value) :: written) ↔ fields name = some value ∧ fields.Hold written :=
  List.forall_mem_cons

theorem Fields.hold_append {more : List (String × Json)} :
    fields.Hold (written ++ more) ↔ fields.Hold written ∧ fields.Hold more :=
  List.forall_mem_append

/-- Of an object with different names every field is found under its name. -/
theorem hold_lookup (h : (written.map Prod.fst).Nodup) :
    Fields.Hold (fun name => lookup name written) written := by
  induction written with
  | nil => exact nofun
  | cons first rest ih =>
    obtain ⟨key, value⟩ := first
    rw [List.map_cons, List.nodup_cons] at h
    intro field hfield
    rcases List.mem_cons.mp hfield with rfl | hrest
    · exact if_pos rfl
    · have hname : field.1 ∈ rest.map Prod.fst := List.mem_map_of_mem hrest
      have hne : key ≠ field.1 := fun heq => h.1 (heq ▸ hname)
      exact (if_neg hne).trans (ih h.2 field hrest)

/-- A value that may be missing is read back, unless another one is written like a missing one. -/
theorem Fields.getOption_of_eq (hcodec : Codec toJson ofJson? asRead) (hnull : ∀ x, toJson x ≠ null)
    {x : Option α} (hfield : fields name = some (ofOption toJson x)) :
    fields.getOption name ofJson? = some (x.map asRead) := by
  rw [Fields.getOption, hfield]
  cases x with
  | none => rfl
  | some x =>
    dsimp only [ofOption]
    split
    · rename_i heq
      cases heq
    · rename_i heq
      exact absurd (Option.some.inj heq) (hnull x)
    · rename_i heq
      cases heq
      rw [hcodec.value, Option.map_some, Option.map_some]

theorem Codec.writable_ofOption (hcodec : Codec toJson ofJson? asRead) (x : Option α) :
    Writable (ofOption toJson x) := by
  cases x with
  | none => exact .null
  | some x => exact hcodec.writable x

/-- The fields of every value can be written, and it is read, as `asRead` says, from any fields among which
they are. -/
structure FieldsCodec (toFields : α → List (String × Json)) (ofFields? : Fields → Option α)
    (asRead : α → α) : Prop where
  value : ∀ x (fields : Fields), fields.Hold (toFields x) → ofFields? fields = some (asRead x)
  writable : ∀ x, ∀ field ∈ toFields x, Writable field.2

/-- A record is read back from its fields if their names are different. -/
theorem FieldsCodec.codec {take : Json → Option Fields} (h : FieldsCodec toFields ofFields? asRead)
    (htake : ∀ written, take (object written) = some fun name => lookup name written)
    (hnames : ∀ x, ((toFields x).map Prod.fst).Nodup) :
    Codec (fun x => object (toFields x)) (fun j => (take j).bind ofFields?) asRead where
  value x := by
    rw [htake, Option.bind_some]
    exact h.value x _ (hold_lookup (hnames x))
  writable x := .object (hnames x) (h.writable x)

end Records

end Json

end PriceArchive
