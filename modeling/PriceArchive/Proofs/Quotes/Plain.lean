import PriceArchive.Proofs.Action.BatchedWrites
import PriceArchive.Proofs.Action.Kept
import PriceArchive.Proofs.Action.Statements
import PriceArchive.Proofs.Quotes.Collision
import PriceArchive.Proofs.Session.Supply

namespace PriceArchive

open Statement

namespace Quotes

section Conversion

variable {σ : Type}

/-- The quote has a volume that cannot be stored. -/
def Oversize (q : NewQuote σ) : Prop := 2 ^ 63 ≤ q.bar.volume.toNat

variable [Subject σ] {series : Series σ} {batch : List (NewQuote σ)} {s t : Session} {n : Nat}

end Conversion

section Supply

variable {σ : Type}

variable [Subject σ] {series : Series σ} {batch : List (NewQuote σ)} {s t : Session} {n : Nat}

end Supply

section Acceptable

variable {σ : Type} [Subject σ]

/-- But for its volumes nothing stands against a batch in a session: its dates are in whole microseconds
and outside of leap seconds, its times and texts are accepted, and so are the clock readings and ids that
are still to come, which are new. -/
structure Acceptable (series : Series σ) (batch : List (NewQuote σ)) (s : Session) : Prop where
  isOpen : s.Open
  whole : ∀ q ∈ batch, q.date.nanos % 1000 = 0 ∧ q.date.inLeapSecond = false
  texts : ∀ q ∈ batch, Binding.texts (Subject.texts q.subject) = .ok ()
  date : ∀ q ∈ batch, StoredTime.ofInstant? q.date ≠ none
  storable : s.supply.Storable
  fresh : s.supply.Fresh ((series.get s.store).map QuoteOf.id)

variable {series : Series σ} {batch : List (NewQuote σ)} {s t : Session} {n : Nat}

namespace Acceptable

theorem of_subset {batch' : List (NewQuote σ)} (h : Acceptable series batch s) (hsub : batch' ⊆ batch) :
    Acceptable series batch' s where
  isOpen := h.isOpen
  whole q hq := h.whole q (hsub hq)
  texts q hq := h.texts q (hsub hq)
  date q hq := h.date q (hsub hq)
  storable := h.storable
  fresh := h.fresh

end Acceptable

end Acceptable

end Quotes

end PriceArchive
