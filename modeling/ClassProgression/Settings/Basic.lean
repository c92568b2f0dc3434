import ClassProgression.Level.Phrase
import ClassProgression.NameMap.Basic

namespace ClassProgression

structure ClassSettings where
  name : Option String := none
  maxLevel : Option UInt32 := none
deriving DecidableEq

structure Settings where
  maxLevel : UInt32 := Level.defaultHighest
  classes : NameMap ClassSettings := {}
deriving DecidableEq

namespace Settings

def maxLevelOf (settings : Settings) (className : String) : UInt32 :=
  ((settings.classes.get? className).bind (·.maxLevel)).getD settings.maxLevel

def displayName (settings : Settings) (className : String) : String :=
  ((settings.classes.get? className).bind (·.name)).getD className

end Settings

end ClassProgression
