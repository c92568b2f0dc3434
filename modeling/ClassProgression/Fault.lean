namespace ClassProgression

inductive TagFault where
  -- The tag is neither a level tag nor a known variable; lines count from one.
  | unrecognized (name : String) (line : Nat)
  | noLevels
deriving DecidableEq

def TagFault.noLevelsReason : String := "at least one level is required"

def TagFault.message : TagFault → String
  | .unrecognized name line => "Unrecognized tag '" ++ name ++ "' at line " ++ Nat.repr line ++
      ". Expected class, level, end-levels, all-levels or a variable name"
  | .noLevels => "Invalid input: " ++ noLevelsReason

inductive Fault where
  | duplicateSlug (slug : String)
  | bundleUnreadable
  | collision (column : String) (level : UInt32) (existing incoming : String)
  | overflow (column : String) (level : UInt32) (existing incoming : String)
  | tag (cause : TagFault)
  | unknownReference (parent child : String)
  | cyclicReference (slug : String)
  | settingsUnreadable
  | inputOutput (reason : String)
deriving DecidableEq

-- For the two unreadable texts the message ends where a reader's own finding would follow.
def Fault.message : Fault → String
  | .duplicateSlug slug => "DUPLICATE_SLUG: feature slug '" ++ slug ++ "' is defined more than once"
  | .bundleUnreadable => "BUNDLE_INVALID: failed to parse feature bundle: "
  | .collision column level existing incoming =>
      "COLLISION: column '" ++ column ++ "' disagrees at level " ++ Nat.repr level.toNat ++ ": " ++
        existing ++ " vs " ++ incoming
  | .overflow column level existing incoming =>
      "OVERFLOW: column '" ++ column ++ "' at level " ++ Nat.repr level.toNat ++ ": " ++
        existing ++ " + " ++ incoming ++ " does not fit"
  | .tag (.unrecognized name line) =>
      "MALFORMED_TAG: unrecognized tag '" ++ name ++ "' at line " ++ Nat.repr line
  | .tag .noLevels => "INVALID_INPUT: " ++ TagFault.noLevelsReason
  | .unknownReference parent child =>
      "UNKNOWN_REFERENCE: feature '" ++ parent ++ "' references unknown child '" ++ child ++ "'"
  | .cyclicReference slug => "CYCLIC_REFERENCE: feature '" ++ slug ++ "' is its own descendant"
  | .settingsUnreadable => "CONFIG_PARSE_ERROR: "
  | .inputOutput reason => "IO_ERROR: " ++ reason

end ClassProgression
