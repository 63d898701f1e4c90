import PriceArchive.Proofs.Price.Bars
import PriceArchive.Proofs.Session.Solo
import PriceArchive.Proofs.Table.Accepted

namespace PriceArchive

/-- The next clock reading can be stored, and the ids that come next can be too and have not been used:
not before, and not in the rows with the ids `taken`. -/
structure Supply.Fresh (supply : Supply) (taken : List String) : Prop where
  clock : StoredTime.ofInstant? (supply.clock supply.ticks) ≠ none
  text : ∀ n, supply.issued ≤ n → Binding.text (supply.ids n) = .ok ()
  distinct : ∀ m n, supply.issued ≤ m → m < n → supply.ids m ≠ supply.ids n
  new : ∀ n, supply.issued ≤ n → supply.ids n ∉ taken

namespace Quotes

variable {σ : Type}

theorem storedBars_of_volumes {batch : List (NewQuote σ)}
    (h : ∀ q ∈ batch, q.bar.volume.toNat < Nat.pow 2 63) : ∃ bars, storedBars batch = .ok bars := by
  induction batch with
  | nil => exact ⟨[], rfl⟩
  | cons q rest ih =>
    obtain ⟨bar, hbar⟩ := Bar.exists_toStored (h q (by simp))
    obtain ⟨others, hrest⟩ := ih fun q' hq' => h q' (List.mem_cons_of_mem q hq')
    refine ⟨(q, bar) :: others, ?_⟩
    rw [storedBars, hbar, hrest]
    rfl

theorem nodup_ids_stamped {now : Instant} {ids : Nat → String} {n : Nat}
    (hids : ∀ i j, n ≤ i → i < j → ids i ≠ ids j) (bars : List (NewQuote σ × StoredBar)) :
    ((stamped now ids n bars).map QuoteOf.id).Nodup := by
  induction bars generalizing n with
  | nil => exact List.nodup_nil
  | cons b rest ih =>
    rw [stamped, List.map_cons, List.nodup_cons]
    refine ⟨fun hmem => ?_, ih fun i j hi hj => hids i j (by omega) hj⟩
    obtain ⟨q, hq, hid⟩ := List.mem_map.mp hmem
    obtain ⟨b', -, m, hm, rfl⟩ := mem_stamped hq
    exact hids n m (Nat.le_refl n) (by omega) hid.symm

variable [Subject σ]

/-- The store has nothing against quotes that are not negative in volume and have ids of their own. -/
theorem rule_accepts (names : SeriesNames) {rows batch : List (QuoteRow σ)}
    (hvolume : ∀ r ∈ batch, ¬ r.bar.volume < 0) (hids : (batch.map QuoteOf.id).Nodup)
    (hnew : ∀ r ∈ rows, ∀ row ∈ batch, r.id ≠ row.id) :
    (QuoteRow.rule names).Accepts rows batch := by
  induction batch generalizing rows with
  | nil => trivial
  | cons row batch ih =>
    rw [List.map_cons, List.nodup_cons] at hids
    have hid : (rows.any fun r => decide (r.id = row.id)) = false := by
      apply List.any_eq_false.mpr
      intro r hr
      simpa using hnew r hr row (by simp)
    refine ⟨fun hkey => ?_, ih (fun r hr => hvolume r (List.mem_cons_of_mem row hr)) hids.2 ?_⟩
    · change (rows.any fun r => decide (QuoteOf.key r = QuoteOf.key row)) = false at hkey
      change QuoteRow.refusal names rows row = none
      rw [QuoteRow.refusal, if_neg (hvolume row (by simp)), hid, hkey]
      rfl
    · apply TableRule.forall_mem_put
      · intro r hr row' hrow'
        exact hnew r hr row' (List.mem_cons_of_mem row hrow')
      · intro row' hrow' heq
        exact hids.1 (heq ▸ List.mem_map_of_mem hrow')
      · intro r hr _
        exact hr

/-- Nothing stands against a batch in a session. -/
structure Welcome (series : Series σ) (batch : List (NewQuote σ)) (s : Session) : Prop where
  isOpen : s.Open
  volume : ∀ q ∈ batch, q.bar.volume.toNat < Nat.pow 2 63
  texts : ∀ q ∈ batch, Binding.texts (Subject.texts q.subject) = .ok ()
  date : ∀ q ∈ batch, StoredTime.ofInstant? q.date ≠ none
  fresh : s.supply.Fresh ((series.get s.store).map QuoteOf.id)

theorem exists_quote_eq_ok {q : QuoteOf σ Instant StoredBar} (hid : Binding.text q.id = .ok ())
    (htexts : Binding.texts (Subject.texts q.subject) = .ok ())
    (hdate : StoredTime.ofInstant? q.date ≠ none) (hcreated : StoredTime.ofInstant? q.createdAt ≠ none)
    (hupdated : StoredTime.ofInstant? q.updatedAt ≠ none) : ∃ r, Binding.quote q = .ok r := by
  have hall : Binding.texts (q.id :: Subject.texts q.subject) = .ok () := by
    rw [Binding.texts, hid]
    exact htexts
  have haccepted : ∀ t, StoredTime.ofInstant? t ≠ none → ∃ d, Binding.time t = .ok d := by
    intro t ht
    obtain ⟨d, hd⟩ := Option.ne_none_iff_exists'.mp ht
    exact ⟨d, Binding.time_eq_ok_iff.mpr hd⟩
  obtain ⟨date, hdate⟩ := haccepted _ hdate
  obtain ⟨created, hcreated⟩ := haccepted _ hcreated
  obtain ⟨updated, hupdated⟩ := haccepted _ hupdated
  exact ⟨⟨q.id, q.subject, date, q.bar, created, updated⟩, Binding.quote_eq_ok_iff.mpr
    ⟨hall, hdate, hcreated, hupdated, rfl, rfl, rfl⟩⟩

/-- The rows of a welcome batch can be sent, and the table has nothing against them. -/
theorem Welcome.welcomes {series : Series σ} {batch : List (NewQuote σ)} {s : Session}
    (h : Welcome series batch s) :
    ∃ bars, storedBars (lastPerKey NewQuote.key batch) = .ok bars ∧
      series.table.Welcomes Binding.quote s.store
        (stamped (s.supply.clock s.supply.ticks) s.supply.ids s.supply.issued bars) := by
  have hkept : ∀ q ∈ lastPerKey NewQuote.key batch, q ∈ batch := fun q => mem_of_mem_lastPerKey
  obtain ⟨bars, hbars⟩ := storedBars_of_volumes fun q hq => h.volume q (hkept q hq)
  refine ⟨bars, hbars, ?_⟩
  have hsent : ∀ q ∈ stamped (s.supply.clock s.supply.ticks) s.supply.ids s.supply.issued bars,
      (∃ r, Binding.quote q = .ok r) ∧ ¬ q.bar.volume < 0 ∧
        ∀ r ∈ series.get s.store, r.id ≠ q.id := by
    intro q hq
    obtain ⟨b, hb, m, hm, rfl⟩ := mem_stamped hq
    obtain ⟨p, hp, hsubject, hdate, hbar⟩ := mem_storedBars hbars hb
    have hpbatch := hkept p hp
    refine ⟨exists_quote_eq_ok (h.fresh.text m hm) ?_ ?_ h.fresh.clock h.fresh.clock, ?_, ?_⟩
    · exact hsubject ▸ h.texts p hpbatch
    · exact hdate ▸ h.date p hpbatch
    · exact Bar.not_volume_neg_of_toStored hbar
    · intro r hr heq
      exact h.fresh.new m hm ((show r.id = s.supply.ids m from heq) ▸ List.mem_map_of_mem hr)
  have hcolumns : ∀ (q : QuoteOf σ Instant StoredBar) (r : QuoteRow σ), Binding.quote q = .ok r →
      q.id = r.id ∧ q.bar = r.bar := by
    intro q r hr
    obtain ⟨-, -, -, -, hid, -, hbar⟩ := Binding.quote_eq_ok_iff.mp hr
    exact ⟨hid.symm, hbar.symm⟩
  obtain ⟨rows, hrows⟩ := Binding.exists_all_eq_ok fun q hq => (hsent q hq).1
  have hbound := Binding.all_eq_ok_iff.mp hrows
  have hids : rows.map QuoteOf.id =
      (stamped (s.supply.clock s.supply.ticks) s.supply.ids s.supply.issued bars).map QuoteOf.id :=
    (map_eq_map_of_imp (fun q r hr => (hcolumns q r hr).1) hbound).symm
  have hsource : ∀ r ∈ rows, ∃ q ∈ stamped (s.supply.clock s.supply.ticks) s.supply.ids
      s.supply.issued bars, Binding.quote q = .ok r :=
    fun r hr => exists_mem_of_map_eq hbound.symm hr
  refine ⟨rows, hrows, rule_accepts series.names (fun r hr => ?_) ?_ fun r hr row hrow => ?_⟩
  · obtain ⟨q, hq, hqr⟩ := hsource r hr
    rw [← (hcolumns _ _ hqr).2]
    exact (hsent q hq).2.1
  · rw [hids]
    exact nodup_ids_stamped h.fresh.distinct bars
  · obtain ⟨q, hq, hqr⟩ := hsource row hrow
    rw [← (hcolumns _ _ hqr).1]
    exact (hsent q hq).2.2 r hr

end Quotes

end PriceArchive
