import SpinGlass.Embedding.Json
import SpinGlass.Json.Parser
import SpinGlass.Json.Printer
import SpinGlass.Physical.Json
import SpinGlass.Sample.Json

/-!
# Compile options

Everything about a compilation that is not in the program. All fields have defaults.
-/

namespace SpinGlass

open Json (Value)

/-- The options of a compilation. -/
structure CompileOptions (K : Type) where
  /-- The domain in which the coefficients of the program are written. -/
  mode : Mode
  /-- The chain strength, if it is not to be chosen. -/
  chainStrength : Option K
  /-- The pin strength, if it is not to be chosen. -/
  pinStrength : Option K
  /-- Whether to simplify. -/
  optimize : Bool
  /-- Whether to fix variables whose linear term outweighs their couplings. -/
  foldDominated : Bool
  /-- Pins after the statements of the program. -/
  extraPins : Table String Bool
  embed : EmbedOptions K
  limits : Limits K
  decode : DecodeOptions K

namespace CompileOptions

/-- The options by default. -/
def default {K : Type} [Coefficient K] : CompileOptions K where
  mode := .ising
  chainStrength := none
  pinStrength := none
  optimize := true
  foldDominated := false
  extraPins := .empty
  embed := .default
  limits := .default
  decode := .default

/-- The names of the fields of the options. -/
def fieldNames : List String :=
  ["mode", "chain_strength", "pin_strength", "optimize", "fold_dominated", "extra_pins", "embed",
    "limits", "decode"]

/-- The document of the options. -/
def toJson (o : CompileOptions Float) : Value :=
  .record (fieldNames.zip [o.mode.toJson, .option .float o.chainStrength,
    .option .float o.pinStrength, .bool o.optimize, .bool o.foldDominated,
    .textTable .bool o.extraPins, o.embed.toJson, o.limits.toJson, o.decode.toJson])

/-- Reads options. -/
def ofJson? (v : Value) : Option (CompileOptions Float) := do
  let [mode, chainStrength, pinStrength, optimize, foldDominated, extraPins, embed, limits,
    decode] ← Json.slots fieldNames v | none
  let usual : CompileOptions Float := default
  return {
    mode := ← mode.orElse Mode.ofJson? usual.mode
    chainStrength := ← chainStrength.orElse (Json.readOption Json.readFloat) usual.chainStrength
    pinStrength := ← pinStrength.orElse (Json.readOption Json.readFloat) usual.pinStrength
    optimize := ← optimize.orElse Json.readBool usual.optimize
    foldDominated := ← foldDominated.orElse Json.readBool usual.foldDominated
    extraPins := ← extraPins.orElse (Json.readTextTable Json.readBool) usual.extraPins
    embed := ← embed.orElse (EmbedOptions.ofJson? (Json.nestingLimit - 1)) usual.embed
    limits := ← limits.orElse Limits.ofJson? usual.limits
    decode := ← decode.orElse DecodeOptions.ofJson? usual.decode }

/-- Reads options from the text of a document. -/
def ofJsonText? (text : String) : Option (CompileOptions Float) := (Json.parse? text).bind ofJson?

/-- The text of the document of the options, over several lines. -/
def jsonText (o : CompileOptions Float) : String := o.toJson.indented

end CompileOptions

end SpinGlass
