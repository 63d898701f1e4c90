import PriceArchive.Store.Binding

namespace PriceArchive

/-- A sequence of conversions succeeds exactly when both of its parts do. -/
theorem bind_eq_ok_iff {ε α β : Type} {x : Except ε α} {f : α → Except ε β} {b : β} :
    (x >>= f) = .ok b ↔ ∃ a, x = .ok a ∧ f a = .ok b := by
  cases x with
  | error e => simp [bind, Except.bind]
  | ok a => simp [bind, Except.bind]

/-- A sequence of conversions fails exactly when one of its parts does. -/
theorem bind_eq_error_iff {ε α β : Type} {x : Except ε α} {f : α → Except ε β} {e : ε} :
    (x >>= f) = .error e ↔ x = .error e ∨ ∃ a, x = .ok a ∧ f a = .error e := by
  cases x with
  | error e => simp [bind, Except.bind]
  | ok a => simp [bind, Except.bind]

namespace Binding

variable {α β γ : Type}

theorem texts_eq_ok_iff {xs : List String} :
    texts xs = .ok () ↔ ∀ x ∈ xs, text x = .ok () := by
  induction xs with
  | nil => simp [texts]
  | cons x rest ih =>
    rw [texts, List.forall_mem_cons]
    cases htext : text x with
    | ok _ => simp [ih]
    | error r => simp

/-- A value that is turned down is a text with a character that no text may hold. -/
theorem texts_eq_error {xs : List String} {r : Refusal} (h : texts xs = .error r) :
    r = .nulCharacter := by
  induction xs with
  | nil => cases h
  | cons x rest ih =>
    unfold texts at h
    cases htext : text x with
    | ok _ =>
      rw [htext] at h
      exact ih h
    | error r' =>
      rw [htext] at h
      cases h
      unfold text at htext
      split at htext
      · cases htext
        rfl
      · cases htext

theorem time_eq_ok_iff {t : Instant} {d : StoredTime} :
    time t = .ok d ↔ StoredTime.ofInstant? t = some d := by
  unfold time
  cases StoredTime.ofInstant? t with
  | none => simp
  | some d' => simp

theorem time_eq_error {t : Instant} {r : Refusal} (h : time t = .error r) :
    r = .timeOutOfRange := by
  unfold time at h
  split at h
  · cases h
  · cases h
    rfl

/-- Values are accepted as rows exactly when each of them is. -/
theorem all_eq_ok_iff {bind : α → Except Refusal β} {xs : List α} {ys : List β} :
    all bind xs = .ok ys ↔ xs.map bind = ys.map .ok := by
  induction xs generalizing ys with
  | nil => cases ys <;> simp [all]
  | cons x xs ih =>
    unfold all
    cases hx : bind x with
    | error r => cases ys <;> simp [hx]
    | ok y =>
      cases hrest : all bind xs with
      | error r =>
        have hno : ∀ zs : List β, ¬ xs.map bind = zs.map .ok := by
          intro zs hzs
          rw [← ih, hrest] at hzs
          cases hzs
        cases ys with
        | nil => simp [Except.map]
        | cons z zs => simp [Except.map, hno zs]
      | ok rest =>
        cases ys with
        | nil => simp [Except.map]
        | cons z zs => simp [Except.map, hx, ← ih, hrest]

theorem all_eq_error {bind : α → Except Refusal β} {xs : List α} {r : Refusal}
    (h : all bind xs = .error r) : ∃ x ∈ xs, bind x = .error r := by
  induction xs with
  | nil => cases h
  | cons x xs ih =>
    unfold all at h
    cases hx : bind x with
    | error r' =>
      rw [hx] at h
      cases h
      exact ⟨x, by simp, hx⟩
    | ok y =>
      rw [hx] at h
      cases hrest : all bind xs with
      | error r' =>
        rw [hrest] at h
        cases h
        obtain ⟨x', hx', heq⟩ := ih hrest
        exact ⟨x', List.mem_cons_of_mem x hx', heq⟩
      | ok rest =>
        rw [hrest] at h
        cases h

theorem exists_all_eq_ok {bind : α → Except Refusal β} {xs : List α}
    (h : ∀ x ∈ xs, ∃ y, bind x = .ok y) : ∃ ys, all bind xs = .ok ys := by
  cases hall : all bind xs with
  | ok ys => exact ⟨ys, rfl⟩
  | error r =>
    obtain ⟨x, hx, herror⟩ := all_eq_error hall
    obtain ⟨y, hy⟩ := h x hx
    rw [hy] at herror
    cases herror

theorem all_map_eq_ok {bind : β → Except Refusal γ} {f : α → β} {g : α → γ}
    (h : ∀ x, bind (f x) = .ok (g x)) (xs : List α) : all bind (xs.map f) = .ok (xs.map g) := by
  induction xs with
  | nil => rfl
  | cons x rest ih =>
    rw [List.map_cons, all, h, ih]
    rfl

/-- A quote is accepted exactly when its texts and its times are, and its row has its columns. -/
theorem quote_eq_ok_iff {σ : Type} [Subject σ] {q : QuoteOf σ Instant StoredBar} {r : QuoteRow σ} :
    quote q = .ok r ↔
      texts (q.id :: Subject.texts q.subject) = .ok () ∧ time q.date = .ok r.date ∧
        time q.createdAt = .ok r.createdAt ∧ time q.updatedAt = .ok r.updatedAt ∧
        r.id = q.id ∧ r.subject = q.subject ∧ r.bar = q.bar := by
  simp only [quote, bind_eq_ok_iff]
  constructor
  · rintro ⟨_, htexts, date, hdate, created, hcreated, updated, hupdated, h⟩
    cases h
    exact ⟨htexts, hdate, hcreated, hupdated, rfl, rfl, rfl⟩
  · rintro ⟨htexts, hdate, hcreated, hupdated, hid, hsubject, hbar⟩
    refine ⟨(), htexts, _, hdate, _, hcreated, _, hupdated, ?_⟩
    rw [← hid, ← hsubject, ← hbar]
    rfl

/-- A snapshot is accepted exactly when its texts and its times are, and its row has its columns. -/
theorem snapshot_eq_ok_iff {h : SnapshotOf Instant Binary64} {r : SnapshotRow} :
    snapshot h = .ok r ↔
      texts [h.id, h.brandId, h.action, h.method, h.memo] = .ok () ∧
        time h.createdAt = .ok r.createdAt ∧ time h.updatedAt = .ok r.updatedAt ∧
        r.id = h.id ∧ r.brandId = h.brandId ∧ r.tradePrice = h.tradePrice ∧
        r.currentPrice = h.currentPrice ∧ r.action = h.action ∧ r.method = h.method ∧
        r.memo = h.memo := by
  simp only [snapshot, bind_eq_ok_iff]
  constructor
  · rintro ⟨_, htexts, created, hcreated, updated, hupdated, heq⟩
    cases heq
    exact ⟨htexts, hcreated, hupdated, rfl, rfl, rfl, rfl, rfl, rfl, rfl⟩
  · rintro ⟨htexts, hcreated, hupdated, hid, hbrand, htrade, hcurrent, haction, hmethod, hmemo⟩
    refine ⟨(), htexts, _, hcreated, _, hupdated, ?_⟩
    obtain ⟨id, brandId, tradePrice, currentPrice, action, method, memo, createdAt, updatedAt⟩ := r
    dsimp only at *
    subst hid hbrand htrade hcurrent haction hmethod hmemo
    rfl

/-- A report on a brand is accepted exactly when its texts and its time are, and its row has its
columns. -/
theorem newBrand_eq_ok_iff {createdAt : StoredTime} {b : NewBrand} {r : BrandRow} :
    newBrand createdAt b = .ok r ↔
      texts [b.id, b.symbol, b.name, b.market.code, b.market.name, b.sector33.code, b.sector33.name,
          b.sector17.code, b.sector17.name] = .ok () ∧
        time b.updatedAt = .ok r.updatedAt ∧ r.id = b.id ∧ r.symbol = b.symbol ∧ r.name = b.name ∧
        r.market = b.market ∧ r.sector33 = b.sector33 ∧ r.sector17 = b.sector17 ∧
        r.createdAt = createdAt ∧ r.deletedAt = none := by
  simp only [newBrand, bind_eq_ok_iff]
  constructor
  · rintro ⟨_, htexts, updated, hupdated, heq⟩
    cases heq
    exact ⟨htexts, hupdated, rfl, rfl, rfl, rfl, rfl, rfl, rfl, rfl⟩
  · rintro ⟨htexts, hupdated, hid, hsymbol, hname, hmarket, hsector33, hsector17, hcreated,
      hdeleted⟩
    refine ⟨(), htexts, _, hupdated, ?_⟩
    obtain ⟨id, symbol, name, market, sector33, sector17, created, updatedAt, deletedAt⟩ := r
    dsimp only at *
    subst hid hsymbol hname hmarket hsector33 hsector17 hcreated hdeleted
    rfl

theorem texts_of_append {xs : List String} (ys : List String) (h : texts (xs ++ ys) = .ok ()) :
    texts xs = .ok () := by
  rw [texts_eq_ok_iff] at h ⊢
  exact fun x hx => h x (List.mem_append_left ys hx)

/-- The id and the symbol of a brand that was accepted can be sent again. -/
theorem texts_of_brand_eq_ok {b : Brand Instant} {r : BrandRow} (h : brand b = .ok r) :
    texts [r.id, r.symbol] = .ok () := by
  obtain ⟨_, htexts, h⟩ := bind_eq_ok_iff.mp h
  obtain ⟨_, -, h⟩ := bind_eq_ok_iff.mp h
  obtain ⟨_, -, h⟩ := bind_eq_ok_iff.mp h
  obtain ⟨_, -, h⟩ := bind_eq_ok_iff.mp h
  cases h
  exact texts_of_append _ htexts

theorem texts_of_newBrand_eq_ok {createdAt : StoredTime} {b : NewBrand} {r : BrandRow}
    (h : newBrand createdAt b = .ok r) : texts [r.id, r.symbol] = .ok () := by
  obtain ⟨htexts, -, hid, hsymbol, -⟩ := newBrand_eq_ok_iff.mp h
  rw [hid, hsymbol]
  exact texts_of_append _ htexts

end Binding

theorem text_repr (n : Nat) : Binding.text (Nat.repr n) = .ok () := by
  have hdigits : '\x00' ∉ (Nat.repr n).toList := by
    rw [Nat.toList_repr]
    intro hmem
    have hdigit := Nat.isDigit_of_mem_toDigits (by decide) (by decide) hmem
    cases hdigit
  rw [Binding.text, if_neg (by simpa using hdigits)]

theorem repr_injective {m n : Nat} (h : Nat.repr m = Nat.repr n) : m = n := by
  have hdigits := congrArg String.toList h
  rw [Nat.toList_repr, Nat.toList_repr] at hdigits
  rw [← Nat.ofDigitChars_ten_toDigits (n := m), hdigits, Nat.ofDigitChars_ten_toDigits]

end PriceArchive
