import EnumForge.Yaml.Doc.Parser
import EnumForge.Yaml.Token.Lexer

/-!
# Reading YAML

A text is cut into tokens, and the tokens make up one document.
-/

namespace EnumForge.Yaml

/-- Reads a text that holds one document; one without any reads as an absent value. -/
def read (text : String) : Option Doc := (Token.ofText? text).bind Doc.ofTokens?

end EnumForge.Yaml
