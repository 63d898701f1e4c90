import PriceArchive.Proofs.Action.Failure
import PriceArchive.Proofs.Action.Statements
import PriceArchive.Proofs.Table.Brands
import PriceArchive.Proofs.Work.Commit

namespace PriceArchive

open PriceArchive.Action Statement

namespace Call

/-- Whether an operation is a bulk write. -/
def isBulk : Call → Bool
  | upsertBrands _ | upsertDaily _ | upsertForAnalysis _ | upsertSnapshots _ | upsertIndex .. => true
  | _ => false

/-- How many rows a bulk write sends to a store. -/
def rowCount (store : Store) : Call → Nat
  | upsertBrands batch => (Brands.written batch store.brands).length
  | upsertDaily batch => (lastPerKey NewQuote.key batch).length
  | upsertForAnalysis batch => (lastPerKey NewQuote.key batch).length
  | upsertSnapshots batch => (lastPerKey NewSnapshot.brandId batch).length
  | upsertIndex _ batch => (lastPerKey NewQuote.key batch).length
  | _ => 0

/-- The bulk write of the first `m` of the rows that one sends to a store. -/
def first (m : Nat) (store : Store) : Call → Call
  | upsertBrands batch => upsertBrands ((Brands.written batch store.brands).take m)
  | upsertDaily batch => upsertDaily ((lastPerKey NewQuote.key batch).take m)
  | upsertForAnalysis batch => upsertForAnalysis ((lastPerKey NewQuote.key batch).take m)
  | upsertSnapshots batch => upsertSnapshots ((lastPerKey NewSnapshot.brandId batch).take m)
  | upsertIndex index batch => upsertIndex index ((lastPerKey NewQuote.key batch).take m)
  | c => c

/-- A bulk write of nothing writes nothing. -/
theorem first_zero {c : Call} (hc : c.isBulk = true) (s : Session) :
    ∃ x, (c.first 0 s.store).perform s = (.ok x, s) := by
  cases c with
  | upsertBrands batch => exact ⟨(0 : Nat), rfl⟩
  | upsertDaily batch => exact ⟨(0 : Nat), rfl⟩
  | upsertForAnalysis batch => exact ⟨(0 : Nat), rfl⟩
  | upsertSnapshots batch => exact ⟨(0 : Nat), rfl⟩
  | upsertIndex index batch => exact ⟨(0 : Nat), rfl⟩
  | _ => cases hc

end Call

/-- Without a transaction a bulk write that fails leaves what the same write leaves when it is given the
rows of its first statements only. These are the statements before the one that was turned down, or for
which there was no connection; there are none when the write has no more rows than one statement takes,
or fails for another reason, and then the store is as it was. -/
theorem Call.bulk_failure_keeps_first_statements {c : Call} (hc : c.isBulk = true) {s t : Session}
    (hs : s.transaction = none) {halt : Halt} (h : c.perform s = (.error halt, t)) :
    (∃ k, (∃ n u, (c.first (rowsPerStatement * k) s.store).perform s = (.ok n, u) ∧
          t.store = u.store) ∧
        (k = 0 ∨ rowsPerStatement * k < c.rowCount s.store ∧
          (Refused (.error halt : Except Halt c.Reply) ∨
            Unconnected (.error halt : Except Halt c.Reply)) ∧
          ∃ v, (c.first (rowsPerStatement * (k + 1)) s.store).perform s = (.error halt, v))) ∧
      (c.rowCount s.store ≤ rowsPerStatement ∨
          ¬ (Refused (.error halt : Except Halt c.Reply) ∨
            Unconnected (.error halt : Except Halt c.Reply)) →
        t.store = s.store) := by
  have hleft : ∃ k, (∃ n u, (c.first (rowsPerStatement * k) s.store).perform s = (.ok n, u) ∧
        t.store = u.store) ∧
      (k = 0 ∨ rowsPerStatement * k < c.rowCount s.store ∧
        (Refused (.error halt : Except Halt c.Reply) ∨
          Unconnected (.error halt : Except Halt c.Reply)) ∧
        ∃ v, (c.first (rowsPerStatement * (k + 1)) s.store).perform s = (.error halt, v)) := by
    cases c with
    | upsertBrands batch => exact Brands.left_of_error hs h
    | upsertDaily batch => exact Quotes.left_of_error _ hs h
    | upsertForAnalysis batch => exact Quotes.left_of_error _ hs h
    | upsertSnapshots batch => exact Snapshots.left_of_error hs h
    | upsertIndex index batch => exact Quotes.left_of_error _ hs h
    | _ => cases hc
  refine ⟨hleft, fun hclean => ?_⟩
  obtain ⟨k, ⟨n, u, hfirst, hstore⟩, hcause⟩ := hleft
  have hk : k = 0 := by
    rcases hcause with hk | ⟨hlt, hlost, -⟩
    · exact hk
    · have hle := hclean.resolve_right (not_not_intro hlost)
      have hone : rowsPerStatement * k < rowsPerStatement * 1 := by omega
      have hk := Nat.lt_of_mul_lt_mul_left hone
      omega
  subst hk
  obtain ⟨x, hnone⟩ := first_zero hc s
  have hsame : s = u := congrArg Prod.snd (hnone.symm.trans hfirst)
  rw [hstore, ← hsame]

/-- A brand whose id and ticker symbol are numbers. -/
def numberedBrand (id symbol : Nat) : NewBrand :=
  ⟨Nat.repr id, Nat.repr symbol, "N", .empty, .empty, .empty, .epoch⟩

/-- Brands in one statement, and one more that has the ticker symbol of the first. -/
def overfullBatch : List NewBrand :=
  (List.range rowsPerStatement).map (fun n => numberedBrand (10000 + n) (10000 + n)) ++
    [numberedBrand 11000 10000]

/-- The row of a numbered brand that is written at the start of 1970. -/
def numberedRow (id symbol : Nat) : BrandRow where
  id := Nat.repr id
  symbol := Nat.repr symbol
  name := "N"
  market := .empty
  sector33 := .empty
  sector17 := .empty
  createdAt := ⟨-946684800000000, by decide, by decide⟩
  updatedAt := ⟨-946684800000000, by decide, by decide⟩
  deletedAt := none

theorem time_epoch : Binding.time .epoch = .ok ⟨-946684800000000, by decide, by decide⟩ := by
  decide +kernel

theorem newBrand_numbered (id symbol : Nat) :
    Binding.newBrand ⟨-946684800000000, by decide, by decide⟩ (numberedBrand id symbol) =
      .ok (numberedRow id symbol) := by
  have htexts : Binding.texts [Nat.repr id, Nat.repr symbol, "N", "", "", "", "", "", ""] =
      .ok () := by
    rw [Binding.texts, text_repr]
    dsimp only
    rw [Binding.texts, text_repr]
    decide +kernel
  change (Binding.texts [Nat.repr id, Nat.repr symbol, "N", "", "", "", "", "", ""] >>=
    fun _ => Binding.time .epoch >>= _) = _
  rw [htexts, time_epoch]
  rfl

/-- The rows of the first statement of the overfull batch. -/
def firstRows : List BrandRow :=
  (List.range rowsPerStatement).map fun n => numberedRow (10000 + n) (10000 + n)

theorem firstRows_apart : firstRows.Pairwise Brands.Apart := by
  apply List.Pairwise.map _ _ List.pairwise_lt_range
  intro m n hlt
  have hne : Nat.repr (10000 + m) ≠ Nat.repr (10000 + n) := by
    intro heq
    have hsame := repr_injective heq
    omega
  exact ⟨hne, hne⟩

theorem firstRows_length : firstRows.length = rowsPerStatement := by
  rw [firstRows, List.length_map, List.length_range]

/-- The statements of the overfull batch. -/
theorem statements_overfullBatch :
    (chunks rowsPerStatement overfullBatch).map (Brands.upsertStatement .epoch) =
      [Brands.upsertStatement .epoch
          ((List.range rowsPerStatement).map fun n => numberedBrand (10000 + n) (10000 + n)),
        Brands.upsertStatement .epoch [numberedBrand 11000 10000]] := by
  have hlength : ((List.range rowsPerStatement).map
      fun n => numberedBrand (10000 + n) (10000 + n)).length = rowsPerStatement := by
    rw [List.length_map, List.length_range]
  have hlast : chunks rowsPerStatement [numberedBrand 11000 10000] =
      [[numberedBrand 11000 10000]] := by
    simp [chunks_cons, chunks]
  rw [overfullBatch, chunks_append hlength (by decide), hlast, List.map_cons, List.map_cons,
    List.map_nil]

theorem upsertStatement_firstRows :
    ∃ n, Brands.upsertStatement .epoch
      ((List.range rowsPerStatement).map fun n => numberedBrand (10000 + n) (10000 + n)) .empty =
        .ok (n, .ofBrands firstRows) := by
  have hall := Binding.all_map_eq_ok
    (fun n => newBrand_numbered (10000 + n) (10000 + n)) (List.range rowsPerStatement)
  have hfirst := Brands.upsertStatement_of_apart time_epoch hall firstRows_apart
    (show Store.empty.brands = [] from rfl)
  exact ⟨_, hfirst⟩

theorem overfullBatch_statements :
    keepEach ((chunks rowsPerStatement overfullBatch).map (Brands.upsertStatement .epoch))
        .empty =
      (.error (.duplicateKey "idx_stock_brands_active_ticker_symbol"), .ofBrands firstRows) := by
  obtain ⟨n, hfirst⟩ := upsertStatement_firstRows
  have hid : ∀ r ∈ (Store.ofBrands firstRows).brands, r.id ≠ (numberedRow 11000 10000).id := by
    intro r hr heq
    rw [Store.brands_ofBrands] at hr
    obtain ⟨n, hn, rfl⟩ := List.mem_map.mp hr
    have hsame := repr_injective heq
    have hlt := List.mem_range.mp hn
    rw [rowsPerStatement] at hlt
    omega
  have hmem : numberedRow 10000 10000 ∈ (Store.ofBrands firstRows).brands := by
    rw [Store.brands_ofBrands]
    exact List.mem_map.mpr ⟨0, List.mem_range.mpr (by decide), by rw [Nat.add_zero]⟩
  have hsecond : Brands.upsertStatement .epoch [numberedBrand 11000 10000]
      (Store.ofBrands firstRows) =
        .error (.duplicateKey "idx_stock_brands_active_ticker_symbol") :=
    Brands.upsertStatement_of_taken time_epoch (newBrand_numbered 11000 10000) rfl hid hmem rfl rfl
  rw [statements_overfullBatch, keepEach_cons_of_ok hfirst, keepEach_cons_of_error [] hsecond]
  rfl

theorem ids_overfullBatch :
    overfullBatch.map NewBrand.id =
      (List.range (rowsPerStatement + 1)).map fun n => Nat.repr (10000 + n) := by
  rw [overfullBatch, List.range_succ, List.map_append, List.map_append, List.map_map]
  rfl

theorem written_overfullBatch : Brands.written overfullBatch [] = overfullBatch := by
  have hnodup : (overfullBatch.map NewBrand.id).Nodup := by
    rw [ids_overfullBatch]
    apply List.Pairwise.map _ _ List.pairwise_lt_range
    intro m n hlt heq
    have hsame := repr_injective heq
    omega
  rw [Brands.written, lastPerKey_of_nodup hnodup, List.filter_eq_self]
  intro b _
  rfl

theorem texts_overfullBatch : Binding.texts (overfullBatch.map NewBrand.id) = .ok () := by
  rw [ids_overfullBatch, Binding.texts_eq_ok_iff]
  intro x hx
  obtain ⟨n, -, rfl⟩ := List.mem_map.mp hx
  exact text_repr (10000 + n)

/-- From an empty store the overfull batch runs its statements once its ids have been looked up. -/
theorem upsert_overfullBatch {s : Session} (hgiven : s.server.refusal = none)
    (hs : s.transaction = none) (hstore : s.store = .empty)
    (hclock : s.supply.clock s.supply.ticks = .epoch) :
    (Call.upsertBrands overfullBatch).perform s =
      Session.runAll "upsert stock brands"
        ((chunks rowsPerStatement overfullBatch).map (Brands.upsertStatement .epoch))
        (s.asked.drew 1 0) := by
  have hbatch : overfullBatch ≠ [] := by
    rw [overfullBatch]
    simp
  change Brands.upsert overfullBatch s = _
  rw [Brands.upsert_apply hgiven hs hbatch, texts_overfullBatch, hstore]
  dsimp only
  rw [show Store.empty.brands = [] from rfl, written_overfullBatch, Brands.statements, hclock]

/-- The session in which the brands of the first statement are stored. -/
theorem perform_overfullBatch :
    ∃ t, (Call.upsertBrands overfullBatch).perform Work.quietStart =
        (.error (.error (.query "upsert stock brands"
          (.refused (.duplicateKey "idx_stock_brands_active_ticker_symbol")))), t) ∧
      t.store.brands.length = rowsPerStatement := by
  have hempty : (Work.quietStart.asked.drew 1 0).store = .empty := rfl
  rw [upsert_overfullBatch rfl rfl rfl rfl, Session.runAll_alone rfl rfl, hempty,
    overfullBatch_statements]
  refine ⟨_, rfl, ?_⟩
  dsimp only
  rw [Store.brands_ofBrands, firstRows_length]

/-- A session that gets two connections and no more. -/
def lastConnections (reason : String) : Session :=
  { Work.quietStart with server := .next none (.next none (.down reason)) }

/-- The batch gets one connection to look its brands up and one for its first statement. -/
theorem perform_overfullBatch_unconnected (reason : String) :
    ∃ t, (Call.upsertBrands overfullBatch).perform (lastConnections reason) =
        (.error (.error (.poolUnavailable reason)), t) ∧
      t.store.brands.length = rowsPerStatement := by
  let s := (lastConnections reason).asked.drew 1 0
  obtain ⟨n, hfirst⟩ := upsertStatement_firstRows
  have hone : Session.run "upsert stock brands" (Brands.upsertStatement .epoch
      ((List.range rowsPerStatement).map fun n => numberedBrand (10000 + n) (10000 + n))) s =
        (.ok n, { s.asked with store := .ofBrands firstRows }) := by
    have hempty : s.store = .empty := rfl
    rw [Session.run_of_given (s := s) rfl rfl, hempty, hfirst]
  have hrefusal : s.server.asked.refusal = some reason := rfl
  have htwo : Session.run "upsert stock brands"
      (Brands.upsertStatement .epoch [numberedBrand 11000 10000])
      { s.asked with store := .ofBrands firstRows } = _ :=
    Session.run_of_refusal hrefusal rfl _ _
  rw [upsert_overfullBatch (s := lastConnections reason) rfl rfl rfl rfl, statements_overfullBatch,
    Session.runAll, bind_of_ok hone, bind_apply, Session.runAll, bind_apply, htwo]
  refine ⟨_, rfl, ?_⟩
  change (Store.ofBrands firstRows).brands.length = _
  rw [Store.brands_ofBrands, firstRows_length]

/-- A bulk write that fails can leave the rows of its first statement. -/
theorem Call.failed_bulk_write_can_leave_rows :
    ¬ ∀ (c : Call) (s : Session), c.isBulk = true → s.transaction = none →
      ∀ halt t, c.perform s = (.error halt, t) → t.store = s.store := by
  intro hnothing
  obtain ⟨t, hfails, hleft⟩ := perform_overfullBatch
  rw [hnothing _ Work.quietStart rfl rfl _ t hfails] at hleft
  cases hleft

/-- What the overfull batch leaves is what its first statement leaves, whether the second one is turned
down or has no connection. -/
theorem Call.bulk_failure_overfullBatch :
    (Call.upsertBrands overfullBatch).isBulk = true ∧
      ∀ s ∈ [Work.quietStart, lastConnections "timed out"], s.transaction = none ∧
        ∃ halt t, (Call.upsertBrands overfullBatch).perform s = (.error halt, t) ∧
          t.store ≠ s.store ∧
          ∃ k, 0 < k ∧ rowsPerStatement * k < overfullBatch.length ∧
            ∃ n u, ((Call.upsertBrands overfullBatch).first (rowsPerStatement * k) .empty).perform s =
              (.ok n, u) ∧ t.store = u.store := by
  have hleaves {s t : Session} {halt : Halt} (hs : s.transaction = none) (hempty : .empty = s.store)
      (hfails : (Call.upsertBrands overfullBatch).perform s = (.error halt, t))
      (hleft : t.store.brands.length = rowsPerStatement) :
      t.store ≠ s.store ∧ ∃ k, 0 < k ∧ rowsPerStatement * k < overfullBatch.length ∧
        ∃ n u, ((Call.upsertBrands overfullBatch).first (rowsPerStatement * k) .empty).perform s =
          (.ok n, u) ∧ t.store = u.store := by
    have hne : t.store ≠ s.store := by
      intro heq
      rw [heq, ← hempty] at hleft
      cases hleft
    obtain ⟨⟨k, ⟨n, u, hfirst, hstore⟩, hcause⟩, -⟩ :=
      Call.bulk_failure_keeps_first_statements rfl hs hfails
    refine ⟨hne, k, ?_⟩
    rw [hempty]
    rcases hcause with rfl | ⟨hlt, -, -⟩
    · cases hfirst
      exact absurd hstore hne
    · change rowsPerStatement * k < (Brands.written overfullBatch s.store.brands).length at hlt
      rw [← hempty, show Store.empty.brands = [] from rfl, written_overfullBatch] at hlt
      refine ⟨?_, hlt, n, u, hfirst, hstore⟩
      apply Nat.pos_of_ne_zero
      rintro rfl
      cases hfirst
      exact hne hstore
  refine ⟨rfl, List.forall_mem_cons.mpr ⟨⟨rfl, ?_⟩, List.forall_mem_singleton.mpr ⟨rfl, ?_⟩⟩⟩
  · obtain ⟨t, hfails, hleft⟩ := perform_overfullBatch
    exact ⟨_, t, hfails, hleaves rfl rfl hfails hleft⟩
  · obtain ⟨t, hfails, hleft⟩ := perform_overfullBatch_unconnected "timed out"
    exact ⟨_, t, hfails, hleaves rfl rfl hfails hleft⟩

end PriceArchive
