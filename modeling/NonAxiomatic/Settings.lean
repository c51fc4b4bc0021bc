import NonAxiomatic.Double

/-!
# Settings

The tunable numbers of one reasoner, their defaults, the names under which they are written
(`Settings.fields`) and the ranges in which they make sense (`Settings.validate`).
-/

namespace NonAxiomatic

/-- The tunable numbers of one reasoner. -/
structure Settings where
  horizon : Double := 1.0
  /-- The expectation above which a goal is pursued. -/
  decisionThreshold : Double := 0.6
  /-- The expectation from which a sentence counts as positive. -/
  positiveThreshold : Double := 0.51
  /-- The expectation below which a sentence counts as negative. -/
  negativeThreshold : Double := 0.5
  bagLevels : Nat := 100
  conceptCapacity : Nat := 1000
  linkCapacity : Nat := 100
  tableCapacity : Nat := 5
  inputCapacity : Nat := 1000
  eventCapacity : Nat := 15
  eventDecay : Double := 0.95
  desireDecay : Double := 0.95
  /-- The factor by which the priority of a considered concept decays. -/
  considerDecay : Double := 0.29
  /-- How strongly the priority of an activated concept rises. -/
  activation : Double := 0.99
  relatedAttempts : Nat := 3
  /-- How many concepts are considered in each cycle. -/
  considerPerCycle : Nat := 1
  /-- Whether input events are paired with the events before them. -/
  temporalChaining : Bool := false
  seed : Option UInt64 := none
deriving Inhabited

/-- Where a named setting is kept, by the kind of values it takes. -/
inductive Slot where
  | real (get : Settings → Double) (set : Settings → Double → Settings)
  | count (get : Settings → Nat) (set : Settings → Nat → Settings)
  | flag (get : Settings → Bool) (set : Settings → Bool → Settings)
  | seed (get : Settings → Option UInt64) (set : Settings → Option UInt64 → Settings)

namespace Settings

def fields : List (String × Slot) := [
  ("k", .real horizon fun s x => { s with horizon := x }),
  ("decision_threshold", .real decisionThreshold fun s x => { s with decisionThreshold := x }),
  ("positive_threshold", .real positiveThreshold fun s x => { s with positiveThreshold := x }),
  ("negative_threshold", .real negativeThreshold fun s x => { s with negativeThreshold := x }),
  ("bag_granularity", .count bagLevels fun s n => { s with bagLevels := n }),
  ("memory_concept_capacity", .count conceptCapacity fun s n => { s with conceptCapacity := n }),
  ("concept_link_capacity", .count linkCapacity fun s n => { s with linkCapacity := n }),
  ("table_capacity", .count tableCapacity fun s n => { s with tableCapacity := n }),
  ("global_buffer_capacity", .count inputCapacity fun s n => { s with inputCapacity := n }),
  ("event_buffer_capacity", .count eventCapacity fun s n => { s with eventCapacity := n }),
  ("projection_decay_event", .real eventDecay fun s x => { s with eventDecay := x }),
  ("projection_decay_desire", .real desireDecay fun s x => { s with desireDecay := x }),
  ("priority_decay_value", .real considerDecay fun s x => { s with considerDecay := x }),
  ("priority_strengthen_value", .real activation fun s x => { s with activation := x }),
  ("related_concept_attempts", .count relatedAttempts fun s n => { s with relatedAttempts := n }),
  ("consider_per_cycle", .count considerPerCycle fun s n => { s with considerPerCycle := n }),
  ("temporal_chaining", .flag temporalChaining fun s b => { s with temporalChaining := b }),
  ("seed", .seed seed fun s n => { s with seed := n })]

def slot? (name : String) : Option Slot := (fields.find? fun f => f.1 == name).map (·.2)

def unitNames : List String :=
  ["decision_threshold", "positive_threshold", "negative_threshold", "projection_decay_event",
    "projection_decay_desire", "priority_decay_value", "priority_strengthen_value"]

def capacityNames : List String :=
  ["bag_granularity", "memory_concept_capacity", "concept_link_capacity", "table_capacity",
    "global_buffer_capacity", "event_buffer_capacity", "related_concept_attempts"]

end Settings

/-- Why settings are refused. -/
inductive SettingsError where
  | badHorizon (k : Double)
  | notInUnit (name : String) (value : Double)
  | zero (name : String)
  | unreadable
  /-- The text of settings is no UTF-8 from some byte on; `length` bytes there are wrong, or the
  text ends inside of a character. -/
  | notUtf8 (start : Nat) (length : Option Nat)
deriving Repr

namespace SettingsError

def message : SettingsError → String
  | badHorizon k => "k must be positive, got " ++ Double.plain k
  | notInUnit name value => name ++ " must be in (0, 1), got " ++ Double.plain value
  | zero name => name ++ " must be non-zero"
  | unreadable => "unreadable settings"
  | notUtf8 start (some length) =>
    "Config is not UTF-8: invalid utf-8 sequence of " ++ toString length ++
      " bytes from index " ++ toString start
  | notUtf8 start none =>
    "Config is not UTF-8: incomplete utf-8 byte sequence from index " ++ toString start

end SettingsError

namespace Settings

def fault? (s : Settings) (name : String) : Option SettingsError :=
  match slot? name with
  | some (.real get _) =>
    let x := get s
    if 0.0 < x && x < 1.0 then none else some (.notInUnit name x)
  | some (.count get _) => if get s = 0 then some (.zero name) else none
  | _ => none

def validate (s : Settings) : Except SettingsError Unit :=
  if !(0.0 < s.horizon && s.horizon.isFinite) then .error (.badHorizon s.horizon)
  else match (unitNames ++ capacityNames).findSome? s.fault? with
    | some fault => .error fault
    | none => .ok ()

end Settings

/-! ## Assigning settings

Settings are read from formats that have values of several kinds. `Settings.assign?` gives one
setting a value of such a kind: a whole number may stand where a double is expected, and nothing
else is converted.
-/

/-- A value that a format can give to a setting. -/
inductive Scalar where
  | integer (n : Int)
  | real (x : Double)
  | flag (b : Bool)
  | absent
  | other

namespace Scalar

def real? : Scalar → Option Double
  | real x => some x
  | integer n => some (if n < 0 then -(Double.ofNat n.natAbs) else Double.ofNat n.natAbs)
  | _ => none

def word? : Scalar → Option Nat
  | integer n => if 0 ≤ n ∧ n < UInt64.size then some n.toNat else none
  | _ => none

end Scalar

def Slot.put? (s : Settings) : Slot → Scalar → Option Settings
  | real _ set, v => v.real?.map (set s)
  | count _ set, v => v.word?.map (set s)
  | flag _ set, .flag b => some (set s b)
  | flag .., _ => none
  | seed _ set, .absent => some (set s none)
  | seed _ set, v => v.word?.map fun n => set s (some n.toUInt64)

/-- Give the setting of a name a value. A name that is no setting's is passed over. -/
def Settings.assign? (s : Settings) (name : String) (v : Scalar) : Option Settings :=
  match slot? name with
  | some slot => slot.put? s v
  | none => some s

def Settings.assignAll? (s : Settings) (values : List (String × Scalar)) : Option Settings :=
  values.foldlM (fun s (name, v) => s.assign? name v) s

end NonAxiomatic
