import PriceArchive.Job.Ingest
import PriceArchive.Proofs.Table.Batch

namespace PriceArchive

theorem Instant.le_trans {a b c : Instant} (hab : a ≤ b) (hbc : b ≤ c) : a ≤ c := by
  change Instant.Le a b at hab
  change Instant.Le b c at hbc
  change Instant.Le a c
  unfold Instant.Le at *
  omega

theorem Instant.le_total (a b : Instant) : a ≤ b ∨ b ≤ a := by
  change Instant.Le a b ∨ Instant.Le b a
  unfold Instant.Le
  omega

namespace NewQuote

/-- The order of the dates of quotes. -/
def byDate (p q : NewQuote Instrument) : Bool := decide (p.date ≤ q.date)

theorem byDate_trans (p q r : NewQuote Instrument) (hpq : byDate p q = true)
    (hqr : byDate q r = true) : byDate p r = true := by
  simp only [byDate, decide_eq_true_eq] at *
  exact Instant.le_trans hpq hqr

theorem byDate_total (p q : NewQuote Instrument) : byDate p q = true ∨ byDate q p = true := by
  simp only [byDate, decide_eq_true_eq]
  exact Instant.le_total p.date q.date

end NewQuote

namespace Ingest

/-- The quotes of a batch that are about a brand. -/
def quotesOf (b : String) (batch : List (NewQuote Instrument)) : List (NewQuote Instrument) :=
  batch.filter fun q => decide (q.subject.brandId = b)

theorem mem_quotesOf {b : String} {batch : List (NewQuote Instrument)} {q : NewQuote Instrument} :
    q ∈ quotesOf b batch ↔ q ∈ batch ∧ q.subject.brandId = b := by
  simp [quotesOf]

/-- The close of a quote. -/
def closeOf (q : NewQuote Instrument) : LatestClose := ⟨q.subject.brandId, q.date, q.bar.closing⟩

/-- The latest close of a quote's brand with the quote. -/
def merge (q : NewQuote Instrument) : Option LatestClose → LatestClose
  | none => closeOf q
  | some c => if c.date ≤ q.date then closeOf q else c

/-- The closes are in the order of brands, and no brand has two. -/
def Sorted (closes : List LatestClose) : Prop :=
  closes.Pairwise fun c d => c.brandId < d.brandId

theorem brandId_of_mem_note {q : NewQuote Instrument} {closes : List LatestClose} {c : LatestClose}
    (hc : c ∈ note q closes) :
    c.brandId = q.subject.brandId ∨ ∃ d ∈ closes, c.brandId = d.brandId := by
  induction closes with
  | nil =>
    rw [note, List.mem_singleton] at hc
    exact .inl (hc ▸ rfl)
  | cons d rest ih =>
    rw [note] at hc
    split at hc
    · rename_i heq
      rcases List.mem_cons.mp hc with rfl | hc
      · left
        split <;> exact heq
      · exact .inr ⟨c, List.mem_cons_of_mem d hc, rfl⟩
    · split at hc
      · rcases List.mem_cons.mp hc with rfl | hc
        · exact .inl rfl
        · exact .inr ⟨c, hc, rfl⟩
      · rcases List.mem_cons.mp hc with rfl | hc
        · exact .inr ⟨c, by simp, rfl⟩
        · rcases ih hc with heq | ⟨e, he, heq⟩
          · exact .inl heq
          · exact .inr ⟨e, List.mem_cons_of_mem d he, heq⟩

theorem Sorted.note {closes : List LatestClose} (hsorted : Sorted closes)
    (q : NewQuote Instrument) : Sorted (note q closes) := by
  induction closes with
  | nil => exact List.pairwise_singleton _ _
  | cons d rest ih =>
    unfold Sorted at hsorted ih ⊢
    rw [List.pairwise_cons] at hsorted
    rw [Ingest.note]
    split
    · rename_i heq
      refine List.pairwise_cons.mpr ⟨fun e he => ?_, hsorted.2⟩
      split
      · exact hsorted.1 e he
      · exact hsorted.1 e he
    · rename_i hne
      split
      · rename_i hlt
        refine List.pairwise_cons.mpr ⟨fun e he => ?_, List.pairwise_cons.mpr hsorted⟩
        rcases List.mem_cons.mp he with rfl | he
        · exact hlt
        · exact String.lt_trans hlt (hsorted.1 e he)
      · rename_i hge
        have hlt : d.brandId < q.subject.brandId := by
          apply Classical.byContradiction
          intro hle
          exact hne (String.le_antisymm hge hle)
        refine List.pairwise_cons.mpr ⟨fun e he => ?_, ih hsorted.2⟩
        rcases brandId_of_mem_note he with heq | ⟨f, hf, heq⟩
        · rwa [heq]
        · rw [heq]
          exact hsorted.1 f hf

/-- The closes of a brand. -/
def closesOf (b : String) (closes : List LatestClose) : List LatestClose :=
  closes.filter fun c => decide (c.brandId = b)

theorem closesOf_cons_pos {b : String} {c : LatestClose} (hc : c.brandId = b)
    (rest : List LatestClose) : closesOf b (c :: rest) = c :: closesOf b rest := by
  simp [closesOf, hc]

theorem closesOf_cons_neg {b : String} {c : LatestClose} (hc : c.brandId ≠ b)
    (rest : List LatestClose) : closesOf b (c :: rest) = closesOf b rest := by
  simp [closesOf, hc]

theorem closesOf_eq_nil {b : String} {closes : List LatestClose}
    (h : ∀ c ∈ closes, b < c.brandId) : closesOf b closes = [] := by
  apply List.filter_eq_nil_iff.mpr
  intro c hc heq
  have hlt := h c hc
  rw [of_decide_eq_true heq] at hlt
  exact String.lt_irrefl b hlt

/-- A quote changes the close of its own brand only. -/
theorem closesOf_note {closes : List LatestClose} (hsorted : Sorted closes)
    (q : NewQuote Instrument) (b : String) :
    closesOf b (note q closes) =
      if q.subject.brandId = b then [merge q (closesOf b closes).head?] else closesOf b closes := by
  induction closes with
  | nil =>
    rw [note]
    by_cases hq : q.subject.brandId = b
    · rw [closesOf_cons_pos hq, if_pos hq]
      rfl
    · rw [closesOf_cons_neg hq, if_neg hq]
  | cons d rest ih =>
    have hpairwise := List.pairwise_cons.mp hsorted
    rw [note]
    split
    · rename_i heq
      have hmerge : (if d.date ≤ q.date then
          (⟨d.brandId, q.date, q.bar.closing⟩ : LatestClose) else d) = merge q (some d) := by
        rw [merge, closeOf, heq]
      have hbrand : (merge q (some d)).brandId = d.brandId := by
        rw [← hmerge]
        split <;> rfl
      rw [hmerge]
      by_cases hq : q.subject.brandId = b
      · have hd : d.brandId = b := heq.trans hq
        have hrest : closesOf b rest = [] := closesOf_eq_nil (hd ▸ hpairwise.1)
        rw [closesOf_cons_pos (hbrand.trans hd), closesOf_cons_pos hd, if_pos hq, hrest]
        rfl
      · have hd : d.brandId ≠ b := by rwa [heq]
        rw [closesOf_cons_neg (by rwa [hbrand]), closesOf_cons_neg hd, if_neg hq]
    · rename_i hne
      split
      · rename_i hlt
        by_cases hq : q.subject.brandId = b
        · have hrest : closesOf b (d :: rest) = [] := by
            apply closesOf_eq_nil
            intro c hc
            rcases List.mem_cons.mp hc with rfl | hc
            · rwa [← hq]
            · exact String.lt_trans (hq ▸ hlt) (hpairwise.1 c hc)
          rw [closesOf_cons_pos hq, if_pos hq, hrest]
          rfl
        · rw [closesOf_cons_neg hq, if_neg hq]
      · by_cases hd : d.brandId = b
        · have hq : q.subject.brandId ≠ b := fun hq => hne (hd.trans hq.symm)
          rw [closesOf_cons_pos hd, closesOf_cons_pos hd, ih hpairwise.2, if_neg hq, if_neg hq]
        · rw [closesOf_cons_neg hd, closesOf_cons_neg hd, ih hpairwise.2]

theorem sorted_foldl_note (batch : List (NewQuote Instrument)) {closes : List LatestClose}
    (hsorted : Sorted closes) : Sorted (batch.foldl (fun closes q => note q closes) closes) := by
  induction batch generalizing closes with
  | nil => exact hsorted
  | cons q batch ih => exact ih (hsorted.note q)

/-- What is kept of a batch is the close of the newest quote of every brand. -/
theorem closesOf_foldl_note (batch : List (NewQuote Instrument)) (b : String) :
    closesOf b (batch.foldl (fun closes q => note q closes) []) =
      ((newest NewQuote.byDate (quotesOf b batch)).map closeOf).toList := by
  induction batch using List.reverseRecOn with
  | nil => rfl
  | append_singleton batch q ih =>
    rw [List.foldl_append, List.foldl_cons, List.foldl_nil,
      closesOf_note (sorted_foldl_note batch List.Pairwise.nil), ih]
    by_cases hq : q.subject.brandId = b
    · have hquotes : quotesOf b (batch ++ [q]) = quotesOf b batch ++ [q] := by
        simp [quotesOf, hq]
      rw [if_pos hq, hquotes, newest_concat NewQuote.byDate_trans NewQuote.byDate_total]
      cases newest NewQuote.byDate (quotesOf b batch) with
      | none => rfl
      | some p =>
        by_cases hle : p.date ≤ q.date
        · simp [merge, closeOf, NewQuote.byDate, hle]
        · simp [merge, closeOf, NewQuote.byDate, hle]
    · have hquotes : quotesOf b (batch ++ [q]) = quotesOf b batch := by
        simp [quotesOf, hq]
      rw [if_neg hq, hquotes]

theorem nodup_brandIds_latestCloses (batch : List (NewQuote Instrument)) :
    ((latestCloses batch).map NewSnapshot.brandId).Nodup := by
  have hempty : Sorted [] := List.Pairwise.nil
  have hsorted := sorted_foldl_note batch hempty
  rw [latestCloses, List.map_map, List.Nodup, List.pairwise_map]
  apply List.Pairwise.imp _ hsorted
  intro c d hlt heq
  rw [show c.brandId = d.brandId from heq] at hlt
  exact String.lt_irrefl _ hlt

/-- An ingest writes, for every brand of its batch, a snapshot with the close of the brand's newest
quote in the batch. -/
theorem filter_latestCloses (batch : List (NewQuote Instrument)) (b : String) :
    ((latestCloses batch).filter fun h => decide (h.brandId = b)) =
      ((newest NewQuote.byDate (quotesOf b batch)).map
        fun q => NewSnapshot.ofPrice q.subject.brandId q.bar.closing).toList := by
  have hfold := closesOf_foldl_note batch b
  rw [latestCloses, List.filter_map]
  change ((closesOf b _).map _) = _
  rw [hfold]
  cases newest NewQuote.byDate (quotesOf b batch) with
  | none => rfl
  | some q => rfl

end Ingest

end PriceArchive
