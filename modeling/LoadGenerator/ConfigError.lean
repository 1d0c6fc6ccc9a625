import LoadGenerator.Text.Bytes

namespace LoadGenerator

structure ConfigError where
  field : Bytes
  message : Bytes
  deriving DecidableEq, Repr

namespace ConfigError

def of (field message : String) : ConfigError := ⟨utf8 field, utf8 message⟩

def text (e : ConfigError) : Bytes :=
  if e.field.isEmpty then e.message else e.field ++ utf8 ": " ++ e.message

end ConfigError

end LoadGenerator
