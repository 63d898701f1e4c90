import PriceArchive.Proofs.Text.Numeral
import PriceArchive.Settings.Basic
import Mathlib.Algebra.Order.Ring.Int

namespace PriceArchive

section Words

/-- The words of a text, between which its white space stands. -/
def words (text : String) : List (List Char) :=
  (text.toList.splitOnP isBlank).filter fun word => !word.isEmpty

theorem countWords_eq (inside : Bool) (cs : List Char) :
    countWords inside cs =
      (((if inside then (cs.splitOnP isBlank).tail else cs.splitOnP isBlank)).filter
        fun word => !word.isEmpty).length := by
  induction cs generalizing inside with
  | nil => cases inside <;> rfl
  | cons c cs ih =>
    rw [countWords, List.splitOnP_cons_eq_if_modifyHead]
    split
    · -- White space ends the word that has begun, or leaves an empty one out.
      rw [ih]
      cases inside <;> rfl
    · obtain ⟨word, rest, hsplit⟩ := List.exists_cons_of_ne_nil (List.splitOnP_ne_nil isBlank cs)
      have htail := ih true
      rw [hsplit] at htail ⊢
      cases inside with
      | true => exact htail
      | false => exact congrArg (· + 1) htail

theorem wordCount_eq (text : String) : wordCount text = (words text).length :=
  countWords_eq false text.toList

end Words

/-- What an environment gives for a number: the one that the text of a variable writes, or the default if
the variable is not set or its text writes none. -/
inductive Environment.Gives {α : Type} (env : Environment) (name : String) (Writes : String → α → Prop)
    (default : α) : α → Prop
  | written {text : String} {a : α} (set : env name = some text) (writes : Writes text a) :
    Gives env name Writes default a
  | fallback (unwritten : ∀ text a, env name = some text → ¬ Writes text a) :
    Gives env name Writes default default

/-- A word that is read is the number that is given, if what is read are the texts that write one. -/
theorem Environment.gives_iff {α β : Type} {env : Environment} {name : String}
    {Writes : String → α → Prop} {read : String → Option β} {number : β → α}
    (hread : ∀ text b, read text = some b ↔ Writes text (number b))
    (hrange : ∀ text a, Writes text a → ∃ b, number b = a) (default : β) {a : α} :
    env.Gives name Writes (number default) a ↔ a = number (((env name).bind read).getD default) := by
  constructor
  · rintro (⟨hset, hwrites⟩ | hnone)
    · obtain ⟨b, rfl⟩ := hrange _ _ hwrites
      rw [hset, Option.bind_some, (hread _ b).mpr hwrites, Option.getD_some]
    · cases hset : env name with
      | none => rfl
      | some text =>
        cases hb : read text with
        | none => rw [Option.bind_some, hb, Option.getD_none]
        | some b => exact absurd ((hread text b).mp hb) (hnone text _ hset)
  · rintro rfl
    cases hset : env name with
    | none => exact .fallback fun text a h => by rw [hset] at h; cases h
    | some text =>
      cases hb : read text with
      | none =>
        rw [Option.bind_some, hb, Option.getD_none]
        refine .fallback fun other a h hwrites => ?_
        obtain rfl : text = other := Option.some.inj (hset.symm.trans h)
        obtain ⟨b, rfl⟩ := hrange _ _ hwrites
        rw [(hread text b).mpr hwrites] at hb
        cases hb
      | some b =>
        rw [Option.bind_some, hb, Option.getD_some]
        exact .written hset ((hread text b).mp hb)

open Numeral

section Numbers

variable {env : Environment} {name : String}

theorem gives_word32_iff (default : UInt32) {n : Nat} :
    env.Gives name (fun text n => WritesNatural text n ∧ n < 2 ^ 32) default.toNat n ↔
      n = (((env name).bind word32?).getD default).toNat :=
  Environment.gives_iff (fun _ w => word32?_eq_some_iff.trans (and_iff_left w.toNat_lt_size).symm)
    (fun _ n h => ⟨UInt32.ofNat n, UInt32.toNat_ofNat_of_lt' h.2⟩) default

theorem gives_word64_iff (default : UInt64) {n : Nat} :
    env.Gives name (fun text n => WritesNatural text n ∧ n < 2 ^ 64) default.toNat n ↔
      n = (((env name).bind word64?).getD default).toNat :=
  Environment.gives_iff (fun _ w => word64?_eq_some_iff.trans (and_iff_left w.toNat_lt_size).symm)
    (fun _ n h => ⟨UInt64.ofNat n, UInt64.toNat_ofNat_of_lt' h.2⟩) default

theorem gives_signedWord64_iff (default : Int64) {z : Int} :
    env.Gives name (fun text z => WritesInteger text z ∧ -2 ^ 63 ≤ z ∧ z < 2 ^ 63) default.toInt z ↔
      z = (((env name).bind signedWord64?).getD default).toInt :=
  Environment.gives_iff
    (fun _ w => signedWord64?_eq_some_iff.trans (and_iff_left ⟨w.le_toInt, w.toInt_lt⟩).symm)
    (fun _ z h => ⟨Int64.ofInt z, Int64.toInt_ofInt_of_le h.2.1 h.2.2⟩) default

end Numbers

namespace Settings

/-- What an environment states about the settings. -/
structure Values where
  url : Option String
  poolSize : Nat
  timeoutSeconds : Nat
  retentionDays : Int
  schedule : String
  deriving DecidableEq

/-- The environment states these values: its texts as they stand, numbers that they write, and defaults. -/
structure Stated (env : Environment) (v : Values) : Prop where
  url : v.url = env "DATABASE_URL"
  poolSize :
    env.Gives "DB_POOL_MAX_SIZE" (fun text n => WritesNatural text n ∧ n < 2 ^ 32) 20 v.poolSize
  timeoutSeconds :
    env.Gives "DB_CONNECTION_TIMEOUT_SECS" (fun text n => WritesNatural text n ∧ n < 2 ^ 64) 30
      v.timeoutSeconds
  retentionDays :
    env.Gives "DELISTING_RETENTION_DAYS" (fun text z => WritesInteger text z ∧ -2 ^ 63 ≤ z ∧ z < 2 ^ 63)
      365 v.retentionDays
  schedule : v.schedule = (env "DELISTING_CRON").getD "0 0 3 * * *"

/-- What is stated, by what is read. -/
def valuesOf (env : Environment) : Values where
  url := env "DATABASE_URL"
  poolSize := (((env "DB_POOL_MAX_SIZE").bind word32?).getD 20).toNat
  timeoutSeconds := (((env "DB_CONNECTION_TIMEOUT_SECS").bind word64?).getD 30).toNat
  retentionDays := (((env "DELISTING_RETENTION_DAYS").bind signedWord64?).getD 365).toInt
  schedule := (env "DELISTING_CRON").getD "0 0 3 * * *"

/-- An environment states one thing. -/
theorem stated_iff {env : Environment} {v : Values} : Stated env v ↔ v = valuesOf env := by
  obtain ⟨url, poolSize, timeoutSeconds, retentionDays, schedule⟩ := v
  rw [valuesOf, Values.mk.injEq]
  constructor
  · rintro ⟨hurl, hpool, htimeout, hretention, hschedule⟩
    exact ⟨hurl, (gives_word32_iff 20).mp hpool, (gives_word64_iff 30).mp htimeout,
      (gives_signedWord64_iff 365).mp hretention, hschedule⟩
  · rintro ⟨hurl, hpool, htimeout, hretention, hschedule⟩
    exact ⟨hurl, (gives_word32_iff 20).mpr hpool, (gives_word64_iff 30).mpr htimeout,
      (gives_signedWord64_iff 365).mpr hretention, hschedule⟩

/-- The message is that of the first condition that does not hold. -/
inductive FirstViolated : List (Prop × String) → String → Prop
  | here {condition : Prop} {message : String} {rest : List (Prop × String)} (violated : ¬ condition) :
    FirstViolated ((condition, message) :: rest) message
  | later {condition : Prop} {other message : String} {rest : List (Prop × String)} (holds : condition) :
    FirstViolated rest message → FirstViolated ((condition, other) :: rest) message

namespace FirstViolated

variable {first second : List (Prop × String)} {message : String}

theorem not_all (h : FirstViolated first message) : ¬ ∀ c ∈ first, c.1 := by
  induction h with
  | here violated => exact fun hall => violated (hall _ List.mem_cons_self)
  | later _ _ ih => exact fun hall => ih fun c hc => hall c (List.mem_cons_of_mem _ hc)

theorem append_left (h : FirstViolated first message) : FirstViolated (first ++ second) message := by
  induction h with
  | here violated => exact .here violated
  | later holds _ ih => exact .later holds ih

theorem append_right (hfirst : ∀ c ∈ first, c.1) (h : FirstViolated second message) :
    FirstViolated (first ++ second) message := by
  induction first with
  | nil => exact h
  | cons c rest ih =>
    exact .later (hfirst c List.mem_cons_self) (ih fun d hd => hfirst d (List.mem_cons_of_mem c hd))

end FirstViolated

/-- An outcome under conditions: settings as expected if all hold, and otherwise the message of the first
that does not. -/
inductive Answers {α : Type} (conditions : List (Prop × String)) (Expected : α → Prop) :
    Except SettingsError α → Prop
  | ok {s : α} (all : ∀ c ∈ conditions, c.1) (expected : Expected s) : Answers conditions Expected (.ok s)
  | error {e : SettingsError} (first : FirstViolated conditions e.message) :
    Answers conditions Expected (.error e)

namespace Answers

variable {α : Type} {conditions : List (Prop × String)} {Expected : α → Prop}
  {r : Except SettingsError α} {s : α} {e : SettingsError}

theorem exists_ok_iff (h : Answers conditions Expected r) :
    (∃ s, r = .ok s) ↔ ∀ c ∈ conditions, c.1 := by
  cases h with
  | ok all _ => exact iff_of_true ⟨_, rfl⟩ all
  | error first => exact iff_of_false nofun first.not_all

theorem expected (h : Answers conditions Expected (.ok s)) : Expected s := by
  cases h
  assumption

theorem first (h : Answers conditions Expected (.error e)) : FirstViolated conditions e.message := by
  cases h
  assumption

end Answers

/-- What the store needs, each condition with what is said where it is not met. -/
def Values.storeConditions (v : Values) : List (Prop × String) :=
  [(∃ url, v.url = some url ∧ url ≠ "", "DATABASE_URL environment variable is required"),
    (v.poolSize ≠ 0, "DB_POOL_MAX_SIZE must be greater than 0"),
    (v.timeoutSeconds ≠ 0, "DB_CONNECTION_TIMEOUT_SECS must be greater than 0")]

/-- What the cleanup needs. -/
def Values.cleanupConditions (v : Values) : List (Prop × String) :=
  [(0 < v.retentionDays, "DELISTING_RETENTION_DAYS must be greater than 0"),
    (6 ≤ (words v.schedule).length,
      "Invalid DELISTING_CRON: " ++ v.schedule ++ ". Expected six fields starting with seconds")]

/-- All conditions in their order. -/
def Values.conditions (v : Values) : List (Prop × String) := v.storeConditions ++ v.cleanupConditions

theorem Values.conditions_hold_iff {v : Values} :
    (∀ c ∈ v.conditions, c.1) ↔
      (∃ url, v.url = some url ∧ url ≠ "") ∧ v.poolSize ≠ 0 ∧ v.timeoutSeconds ≠ 0 ∧
        0 < v.retentionDays ∧ 6 ≤ (words v.schedule).length := by
  simp only [conditions, storeConditions, cleanupConditions, List.cons_append, List.nil_append,
    List.forall_mem_cons, List.not_mem_nil, false_implies, implies_true, and_true]

/-- The settings of the store are those that are stated. -/
structure Values.InStore (v : Values) (s : StoreSettings) : Prop where
  url : v.url = some s.url
  poolSize : s.poolSize.toNat = v.poolSize
  timeoutSeconds : s.timeoutSeconds.toNat = v.timeoutSeconds

/-- The settings of the cleanup are those that are stated. -/
structure Values.InCleanup (v : Values) (s : CleanupSettings) : Prop where
  retentionDays : s.retentionDays.toInt = v.retentionDays
  schedule : s.schedule = v.schedule

theorem answers_store (env : Environment) :
    Answers (valuesOf env).storeConditions (valuesOf env).InStore (StoreSettings.read env) := by
  unfold StoreSettings.read StoreSettings.ofValues
  split
  · rename_i hempty
    refine .error (.here ?_)
    rintro ⟨url, hset, hne⟩
    change env "DATABASE_URL" = some url at hset
    rw [hset] at hempty
    exact hne hempty
  rename_i hempty
  have hurl : ∃ url, env "DATABASE_URL" = some url ∧ url ≠ "" := by
    cases hset : env "DATABASE_URL" with
    | none => exact absurd (by rw [hset]; rfl) hempty
    | some url => exact ⟨url, rfl, by rwa [hset] at hempty⟩
  split
  · rename_i hpool
    exact .error (.later hurl (.here fun hne => hne (congrArg UInt32.toNat hpool)))
  rename_i hpool
  have hpool : (valuesOf env).poolSize ≠ 0 := fun hzero => hpool (UInt32.toNat_inj.mp hzero)
  split
  · rename_i htimeout
    exact .error (.later hurl (.later hpool (.here fun hne => hne (congrArg UInt64.toNat htimeout))))
  rename_i htimeout
  have htimeout : (valuesOf env).timeoutSeconds ≠ 0 := fun hzero => htimeout (UInt64.toNat_inj.mp hzero)
  refine .ok ?_ ⟨?_, rfl, rfl⟩
  · rw [Values.storeConditions, List.forall_mem_cons, List.forall_mem_cons, List.forall_mem_singleton]
    exact ⟨hurl, hpool, htimeout⟩
  · obtain ⟨url, hset, -⟩ := hurl
    dsimp only
    rw [hset, Option.getD_some]
    exact hset

theorem answers_cleanup (env : Environment) :
    Answers (valuesOf env).cleanupConditions (valuesOf env).InCleanup (CleanupSettings.read env) := by
  unfold CleanupSettings.read CleanupSettings.ofValues
  split
  · rename_i hretention
    have hretention : 0 < (valuesOf env).retentionDays := Int64.lt_iff_toInt_lt.mp hretention
    split
    · rename_i hschedule
      rw [wordCount_eq] at hschedule
      refine .ok ?_ ⟨rfl, rfl⟩
      rw [Values.cleanupConditions, List.forall_mem_cons, List.forall_mem_singleton]
      exact ⟨hretention, hschedule⟩
    · rename_i hschedule
      rw [wordCount_eq] at hschedule
      exact .error (.later hretention (.here hschedule))
  · rename_i hretention
    exact .error (.here fun hpos => hretention (Int64.lt_iff_toInt_lt.mpr hpos))

/-- The settings of the store are checked first. -/
theorem answers_read (env : Environment) :
    Answers (valuesOf env).conditions
      (fun s => (valuesOf env).InStore s.store ∧ (valuesOf env).InCleanup s.cleanup) (read env) := by
  have hstore := answers_store env
  have hcleanup := answers_cleanup env
  rw [read]
  generalize StoreSettings.read env = store at hstore ⊢
  generalize CleanupSettings.read env = cleanup at hcleanup ⊢
  cases hstore with
  | error first => exact .error first.append_left
  | ok storeAll inStore =>
    cases hcleanup with
    | error first => exact .error (first.append_right storeAll)
    | ok cleanupAll inCleanup =>
      refine .ok (fun c hc => ?_) ⟨inStore, inCleanup⟩
      rcases List.mem_append.mp hc with hc | hc
      · exact storeAll c hc
      · exact cleanupAll c hc

/-- An environment states one thing about the settings, and this alone decides. Settings are read exactly
if it meets every condition, and then each of them is what is stated. Otherwise what is said is the message
of the first condition that it does not meet. -/
theorem read_answers_stated (env : Environment) :
    (∃ v, Stated env v) ∧
      ∀ v, Stated env v →
        ((∃ s, read env = .ok s) ↔
            (∃ url, v.url = some url ∧ url ≠ "") ∧ v.poolSize ≠ 0 ∧ v.timeoutSeconds ≠ 0 ∧
              0 < v.retentionDays ∧ 6 ≤ (words v.schedule).length) ∧
          (∀ s, read env = .ok s → v.InStore s.store ∧ v.InCleanup s.cleanup) ∧
          ∀ e, read env = .error e → FirstViolated v.conditions e.message := by
  refine ⟨⟨_, stated_iff.mpr rfl⟩, fun v hv => ?_⟩
  obtain rfl := stated_iff.mp hv
  have hanswers := answers_read env
  exact ⟨hanswers.exists_ok_iff.trans Values.conditions_hold_iff, fun s hs => (hs ▸ hanswers).expected,
    fun e he => (he ▸ hanswers).first⟩

/-- A timeout that is out of range and a schedule that ends with an ideographic space. -/
def wideSpaced : Environment :=
  .ofList [("DATABASE_URL", "postgresql://store"), ("DB_POOL_MAX_SIZE", "+0008"),
    ("DB_CONNECTION_TIMEOUT_SECS", "18446744073709551616"),
    ("DELISTING_RETENTION_DAYS", "9223372036854775807"), ("DELISTING_CRON", "0 0  3 *\t* *\u3000")]

/-- The least retention, and a schedule with too few fields. -/
def leastRetention : Environment :=
  .ofList [("DATABASE_URL", "postgresql://store"), ("DB_POOL_MAX_SIZE", "4294967295"),
    ("DELISTING_RETENTION_DAYS", "-9223372036854775808"), ("DELISTING_CRON", "0 3 * * *")]

/-- The timeout falls back and the rest is accepted; of two conditions that are not met the retention comes
first. -/
theorem read_answers_stated_fallback :
    Stated wideSpaced
        ⟨some "postgresql://store", 8, 30, 9223372036854775807, "0 0  3 *\t* *\u3000"⟩ ∧
      (∃ s, read wideSpaced = .ok s) ∧
      Stated leastRetention
        ⟨some "postgresql://store", 4294967295, 30, -9223372036854775808, "0 3 * * *"⟩ ∧
      FirstViolated
        (Values.conditions ⟨some "postgresql://store", 4294967295, 30, -9223372036854775808, "0 3 * * *"⟩)
        "DELISTING_RETENTION_DAYS must be greater than 0" := by
  have hwide : Stated wideSpaced
      ⟨some "postgresql://store", 8, 30, 9223372036854775807, "0 0  3 *\t* *\u3000"⟩ :=
    stated_iff.mpr (by decide +kernel)
  have hleast : Stated leastRetention
      ⟨some "postgresql://store", 4294967295, 30, -9223372036854775808, "0 3 * * *"⟩ :=
    stated_iff.mpr (by decide +kernel)
  refine ⟨hwide, ((read_answers_stated wideSpaced).2 _ hwide).1.mpr ?_, hleast,
    ((read_answers_stated leastRetention).2 _ hleast).2.2 .noRetention rfl⟩
  exact ⟨⟨_, rfl, by decide⟩, by decide, by decide, by decide, by decide +kernel⟩

end Settings

end PriceArchive
