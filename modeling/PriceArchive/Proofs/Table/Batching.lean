import PriceArchive.Proofs.Table.FirstPerKey
import PriceArchive.Proofs.Table.Keyed
import Mathlib.Data.List.Forall2

namespace PriceArchive

namespace TableRule

variable {ρ κ γ ν δ : Type} [DecidableEq κ] {rule : TableRule ρ κ}

/-- The columns of a table apart from the key, by what becomes of them when the row is written again. -/
structure Columns (rule : TableRule ρ κ) (γ ν δ : Type) where
  /-- The columns that a row is given when it is added. -/
  given : ρ → γ
  /-- The columns that every write replaces. -/
  values : ρ → ν
  /-- The columns that are drawn for a row when it is added. -/
  drawn : ρ → δ
  keepsKey : rule.KeepsKey
  given_overwrite : ∀ r row, given (rule.overwrite r row) = given r
  values_overwrite : ∀ r row, values (rule.overwrite r row) = values row
  drawn_overwrite : ∀ r row, drawn (rule.overwrite r row) = drawn r
  overwrite_self : ∀ r, rule.overwrite r r = r

/-- A row with all rows of a batch written over it that have its key. -/
def after (rule : TableRule ρ κ) (batch : List ρ) (r : ρ) : ρ :=
  batch.foldl (fun r row => if rule.key r = rule.key row then rule.overwrite r row else r) r

theorem after_cons_of_ne {row : ρ} {batch : List ρ} {r : ρ} (h : rule.key r ≠ rule.key row) :
    rule.after (row :: batch) r = rule.after batch r := by
  rw [after, List.foldl_cons, if_neg h]
  rfl

theorem after_cons_of_eq {row : ρ} {batch : List ρ} {r : ρ} (h : rule.key r = rule.key row) :
    rule.after (row :: batch) r = rule.after batch (rule.overwrite r row) := by
  rw [after, List.foldl_cons, if_pos h]
  rfl

theorem map_after_cons_of_ne {row : ρ} {batch rows : List ρ}
    (h : ∀ r ∈ rows, rule.key r ≠ rule.key row) :
    rows.map (rule.after (row :: batch)) = rows.map (rule.after batch) :=
  List.map_congr_left fun r hr => after_cons_of_ne (h r hr)

/-- What no row of the same key changes is left as it was by a batch. -/
theorem apply_after {π : Type} {f : ρ → π}
    (hf : ∀ r row, rule.key r = rule.key row → f (rule.overwrite r row) = f r) (batch : List ρ)
    (r : ρ) : f (rule.after batch r) = f r := by
  induction batch generalizing r with
  | nil => rfl
  | cons row batch ih =>
    by_cases h : rule.key r = rule.key row
    · rw [after_cons_of_eq h, ih, hf r row h]
    · rw [after_cons_of_ne h, ih]

namespace Columns

variable (c : rule.Columns γ ν δ)

include c in
theorem key_after (batch : List ρ) (r : ρ) : rule.key (rule.after batch r) = rule.key r :=
  apply_after (fun r row h => (c.keepsKey r row h).trans h.symm) batch r

theorem given_after (batch : List ρ) (r : ρ) : c.given (rule.after batch r) = c.given r :=
  apply_after (fun r row _ => c.given_overwrite r row) batch r

theorem drawn_after (batch : List ρ) (r : ρ) : c.drawn (rule.after batch r) = c.drawn r :=
  apply_after (fun r row _ => c.drawn_overwrite r row) batch r

theorem values_after (batch : List ρ) (r : ρ) :
    c.values (rule.after batch r) =
      (lastUnder rule.key c.values batch (rule.key r)).getD (c.values r) := by
  unfold lastUnder
  induction batch generalizing r with
  | nil => rfl
  | cons row batch ih =>
    by_cases h : rule.key r = rule.key row
    · have hover : rule.key (rule.overwrite r row) = rule.key r := by rw [c.keepsKey r row h, h]
      rw [after_cons_of_eq h, ih, hover, List.filter_cons_of_pos (by simpa using h.symm),
        c.values_overwrite, List.getLast?_cons]
      cases (batch.filter fun row => decide (rule.key row = rule.key r)).getLast? with
      | none => rfl
      | some last => rfl
    · rw [after_cons_of_ne h, ih, List.filter_cons_of_neg (by simpa using Ne.symm h)]

include c in
/-- Writing rows one after the other adds those whose key is new, and every row then has all rows of
its key written over it. -/
theorem foldl_put_eq (rows batch : List ρ) :
    batch.foldl rule.put rows =
      (rows ++ firstPerKey rule.key (rows.map rule.key) batch).map (rule.after batch) := by
  induction batch generalizing rows with
  | nil =>
    rw [firstPerKey, List.append_nil]
    exact (List.map_id rows).symm
  | cons row batch ih =>
    rw [List.foldl_cons, ih, put, firstPerKey]
    by_cases hholds : rule.holds rows (rule.key row) = true
    · have hmem := holds_iff_mem_keys.mp hholds
      rw [if_pos hholds, if_pos hmem, keys_update c.keepsKey, List.map_append, List.map_append]
      congr 1
      · rw [update, List.map_map]
        rfl
      · refine (map_after_cons_of_ne fun r hr heq => ?_).symm
        exact (find?_of_mem_firstPerKey hr).2 (heq ▸ hmem)
    · have hmem : rule.key row ∉ rows.map rule.key := fun hmem => hholds (holds_iff_mem_keys.mpr hmem)
      have hseen : firstPerKey rule.key ((rows ++ [row]).map rule.key) batch =
          firstPerKey rule.key (rule.key row :: rows.map rule.key) batch :=
        firstPerKey_congr (by simp [or_comm]) batch
      rw [if_neg hholds, if_neg hmem, hseen, List.append_assoc, List.singleton_append,
        List.map_append, List.map_append, List.map_cons, List.map_cons,
        after_cons_of_eq (rfl : rule.key row = rule.key row), c.overwrite_self]
      congr 1
      · exact (map_after_cons_of_ne fun r hr heq => hmem (heq ▸ List.mem_map_of_mem hr)).symm
      · congr 1
        refine (map_after_cons_of_ne fun r hr heq => ?_).symm
        exact (find?_of_mem_firstPerKey hr).2 (heq ▸ List.mem_cons_self)

/-- The same row but for what is drawn when it is added: rows that were stored before have kept that
too. -/
def Same (stored : List ρ) (r r' : ρ) : Prop :=
  rule.key r = rule.key r' ∧ c.given r = c.given r' ∧ c.values r = c.values r' ∧
    (rule.key r ∈ stored.map rule.key → c.drawn r = c.drawn r')

/-- The same row but for what it was given when it was added: by the last row of its key in one case, by
the first in the other. -/
def SameButGiven (stored : List ρ) (first last : κ → Option γ) (r r' : ρ) : Prop :=
  rule.key r = rule.key r' ∧ c.values r = c.values r' ∧
    (rule.key r ∈ stored.map rule.key → c.given r = c.given r' ∧ c.drawn r = c.drawn r') ∧
    (rule.key r ∉ stored.map rule.key →
      some (c.given r) = last (rule.key r) ∧ some (c.given r') = first (rule.key r'))

/-- The key, the given columns and the values of a row. -/
def written (r : ρ) : κ × γ × ν := (rule.key r, c.given r, c.values r)

end Columns

end TableRule

/-- Lists with equal views are related item by item if items with equal views are. -/
theorem forall₂_of_map_eq {α β γ : Type} {R : α → β → Prop} {f : α → γ} {g : β → γ} {xs : List α}
    {ys : List β} (h : xs.map f = ys.map g) (hR : ∀ x ∈ xs, ∀ y ∈ ys, f x = g y → R x y) :
    List.Forall₂ R xs ys := by
  induction xs generalizing ys with
  | nil =>
    cases ys with
    | nil => exact .nil
    | cons y ys => cases h
  | cons x xs ih =>
    cases ys with
    | nil => cases h
    | cons y ys =>
      rw [List.map_cons, List.map_cons, List.cons.injEq] at h
      refine .cons (hR x (by simp) y (by simp) h.1) (ih h.2 fun x' hx' y' hy' => ?_)
      exact hR x' (List.mem_cons_of_mem x hx') y' (List.mem_cons_of_mem y hy')

theorem exists_of_forall₂ {α β : Type} {R S : α → β → Prop} {xs : List α} {ys : List β}
    (hR : List.Forall₂ R xs ys) (hS : List.Forall₂ S xs ys) {x : α} (hx : x ∈ xs) :
    ∃ y, R x y ∧ S x y := by
  induction hR with
  | nil => cases hx
  | @cons a b as bs hab _ ih =>
    cases hS with
    | cons hab' hrest =>
      rcases List.mem_cons.mp hx with rfl | hx
      · exact ⟨b, hab, hab'⟩
      · exact ih hrest hx

namespace TableRule.Columns

variable {ρ κ γ ν δ : Type} [DecidableEq κ] {rule : TableRule ρ κ} (c : rule.Columns γ ν δ)

variable {stored whole single : List ρ}

theorem keys_of_collapsed (h : whole.map c.written = (lastPerKey rule.key single).map c.written) :
    whole.map rule.key = (lastPerKey rule.key single).map rule.key :=
  map_eq_map_of_imp (fun _ _ heq => congrArg Prod.fst heq) h

/-- What the last row of a key shows is the same in a batch and in what it is collapsed to. -/
theorem lastUnder_of_collapsed {π : Type} {f : ρ → π}
    (hf : ∀ r r', c.written r = c.written r' → f r = f r')
    (h : whole.map c.written = (lastPerKey rule.key single).map c.written) (k : κ) :
    lastUnder rule.key f whole k = lastUnder rule.key f single k := by
  rw [← lastUnder_lastPerKey single]
  refine lastUnder_of_map_eq (map_eq_map_of_imp (fun r r' heq => ?_) h) k
  rw [hf r r' heq, show rule.key r = rule.key r' from congrArg Prod.fst heq]

/-- A batch that is collapsed to the last row of every key leaves the same rows as the batch written row
by row, but for what the added ones were given. -/
theorem forall₂_sameButGiven
    (h : whole.map c.written = (lastPerKey rule.key single).map c.written) :
    List.Forall₂
      (c.SameButGiven stored (firstUnder rule.key c.given single)
        (lastUnder rule.key c.given single))
      (whole.foldl rule.put stored) (single.foldl rule.put stored) := by
  have hkeys : (firstPerKey rule.key (stored.map rule.key) whole).map rule.key =
      (firstPerKey rule.key (stored.map rule.key) single).map rule.key := by
    rw [keys_firstPerKey, keys_firstPerKey, c.keys_of_collapsed h, keys_lastPerKey,
      firstPerKey_firstPerKey (by simp)]
  have hnodup : (whole.map rule.key).Nodup := by
    rw [c.keys_of_collapsed h]
    exact nodup_keys_lastPerKey rule.key single
  have hgiven := c.lastUnder_of_collapsed (f := c.given)
    (fun _ _ heq => congrArg (fun w => w.2.1) heq) h
  have hvalues := c.lastUnder_of_collapsed (f := c.values)
    (fun _ _ heq => congrArg (fun w => w.2.2) heq) h
  rw [c.foldl_put_eq, c.foldl_put_eq, List.forall₂_map_left_iff, List.forall₂_map_right_iff]
  apply List.rel_append
  · apply List.forall₂_same.mpr
    intro r hr
    refine ⟨?_, ?_, fun _ => ?_, fun hnew => ?_⟩
    · rw [c.key_after, c.key_after]
    · rw [c.values_after, c.values_after, hvalues]
    · rw [c.given_after, c.given_after, c.drawn_after, c.drawn_after]
      exact ⟨rfl, rfl⟩
    · rw [c.key_after] at hnew
      exact absurd (List.mem_map_of_mem hr) hnew
  · apply forall₂_of_map_eq hkeys
    intro r hr r' hr' heq
    obtain ⟨hfind, hseen⟩ := find?_of_mem_firstPerKey hr
    have hmem := List.mem_of_find?_eq_some hfind
    refine ⟨?_, ?_, fun hstored => ?_, fun _ => ⟨?_, ?_⟩⟩
    · rw [c.key_after, c.key_after, heq]
    · rw [c.values_after, c.values_after, hvalues, ← heq, ← hvalues, lastUnder_of_nodup hnodup hmem]
      rfl
    · rw [c.key_after] at hstored
      exact absurd hstored hseen
    · rw [c.given_after, c.key_after, ← hgiven, lastUnder_of_nodup hnodup hmem]
    · rw [c.given_after, c.key_after, firstUnder_of_mem_firstPerKey hr']

/-- So the two ways leave the same table exactly when, for every key that was not stored, the first row
and the last are given the same. -/
theorem forall₂_same_iff (h : whole.map c.written = (lastPerKey rule.key single).map c.written) :
    List.Forall₂ (c.Same stored) (whole.foldl rule.put stored) (single.foldl rule.put stored) ↔
      ∀ k, k ∉ stored.map rule.key →
        firstUnder rule.key c.given single k = lastUnder rule.key c.given single k := by
  have hbut : List.Forall₂ (c.SameButGiven stored _ _) _ _ := c.forall₂_sameButGiven h
  constructor
  · intro hsame k hk
    by_cases hmem : k ∈ single.map rule.key
    · obtain ⟨x, hx, rfl⟩ := List.mem_map.mp hmem
      obtain ⟨y, hy, hyx⟩ := exists_mem_lastPerKey rule.key hx
      have hy : rule.key x ∈ whole.map rule.key := by
        rw [c.keys_of_collapsed h, ← hyx]
        exact List.mem_map_of_mem hy
      obtain ⟨w, hw, hwx⟩ := List.mem_map.mp hy
      have hnew : rule.key w ∉ stored.map rule.key := hwx ▸ hk
      obtain ⟨r, hr, hrw⟩ := exists_mem_firstPerKey hw hnew
      have hadded : rule.after whole r ∈ whole.foldl rule.put stored := by
        rw [c.foldl_put_eq]
        exact List.mem_map_of_mem (List.mem_append_right _ hr)
      obtain ⟨r', ⟨hkey, -, -, hnew⟩, -, hgiven, -⟩ := exists_of_forall₂ hbut hsame hadded
      have hkx : rule.key (rule.after whole r) = rule.key x := by
        rw [c.key_after, hrw, hwx]
      obtain ⟨hlast, hfirst⟩ := hnew (hkx ▸ hk)
      rw [← hkey, hkx, ← hgiven] at hfirst
      rw [hkx] at hlast
      exact hfirst.symm.trans hlast
    · rw [firstUnder_eq_none_iff.mpr hmem, lastUnder_eq_none_iff.mpr hmem]
  · intro hgiven
    refine hbut.imp fun r r' hrr' => ?_
    obtain ⟨hkey, hvalues, hold, hnew⟩ := hrr'
    by_cases hstored : rule.key r ∈ stored.map rule.key
    · exact ⟨hkey, (hold hstored).1, hvalues, fun _ => (hold hstored).2⟩
    · refine ⟨hkey, ?_, hvalues, fun h => absurd h hstored⟩
      obtain ⟨hlast, hfirst⟩ := hnew hstored
      rw [← hkey, hgiven _ hstored, ← hlast] at hfirst
      exact (Option.some.inj hfirst).symm

/-- The two ways to write a batch leave the same rows in the same order but for what the added ones were
given, and so the same rows exactly when, for every key that was not stored, the first item and the last
one give the same. -/
structure AgreeButGiven {α : Type} (key : α → Option κ) (given : α → γ) (batch : List α)
    (stored whole single : List ρ) : Prop where
  rows : List.Forall₂
    (c.SameButGiven stored (fun k => firstUnder key given batch (some k))
      (fun k => lastUnder key given batch (some k))) whole single
  same_iff : List.Forall₂ (c.Same stored) whole single ↔
    ∀ k, k ∉ stored.map rule.key →
      firstUnder key given batch (some k) = lastUnder key given batch (some k)

/-- The rows that are put in one after the other are those of the items, but for items that are passed
over because their key was stored. -/
theorem agreeButGiven {α : Type} {key : α → Option κ} {given : α → γ} {batch : List α} {p : α → Bool}
    (h : whole.map c.written = (lastPerKey rule.key single).map c.written)
    (hitems : single.map (fun r => (some (rule.key r), c.given r)) =
      (batch.filter p).map fun x => (key x, given x))
    (hpassed : ∀ k, k ∉ stored.map rule.key → ∀ x ∈ batch, key x = some k → p x = true) :
    c.AgreeButGiven key given batch stored (whole.foldl rule.put stored)
      (single.foldl rule.put stored) := by
  have hfirst : ∀ k, k ∉ stored.map rule.key →
      firstUnder rule.key c.given single k = firstUnder key given batch (some k) := by
    intro k hk
    rw [← firstUnder_filter (hpassed k hk), ← firstUnder_of_map_eq hitems]
    simp [firstUnder]
  have hlast : ∀ k, k ∉ stored.map rule.key →
      lastUnder rule.key c.given single k = lastUnder key given batch (some k) := by
    intro k hk
    rw [← lastUnder_filter (hpassed k hk), ← lastUnder_of_map_eq hitems]
    simp [lastUnder]
  constructor
  · refine (c.forall₂_sameButGiven h).imp fun r r' hsame => ?_
    obtain ⟨hkey, hvalues, hold, hnew⟩ := hsame
    refine ⟨hkey, hvalues, hold, fun hk => ?_⟩
    dsimp only
    rw [← hlast _ hk, ← hfirst _ (hkey ▸ hk)]
    exact hnew hk
  · rw [c.forall₂_same_iff h]
    apply forall_congr'
    intro k
    apply imp_congr_right
    intro hk
    rw [hfirst k hk, hlast k hk]

end TableRule.Columns

end PriceArchive
