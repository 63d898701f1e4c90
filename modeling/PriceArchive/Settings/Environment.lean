namespace PriceArchive

/-- The values of variables by name; a variable that is not set has none. -/
abbrev Environment := String → Option String

namespace Environment

/-- The environment that sets the listed variables; the first value of a name counts. -/
def ofList (bindings : List (String × String)) : Environment := fun name => bindings.lookup name

/-- The environment with one more variable set, unless it was already. -/
def withDefault (env : Environment) (name value : String) : Environment := fun other =>
  if other = name then some ((env name).getD value) else env other

theorem withDefault_eq_of_isSome {env : Environment} {name : String} (value : String)
    (h : (env name).isSome = true) : env.withDefault name value = env := by
  obtain ⟨old, hold⟩ := Option.isSome_iff_exists.1 h
  funext other
  by_cases heq : other = name <;> simp [withDefault, heq, hold]

theorem withDefault_of_none {env : Environment} {name : String} (value : String)
    (h : env name = none) : env.withDefault name value name = some value := by
  simp [withDefault, h]

end Environment

end PriceArchive
