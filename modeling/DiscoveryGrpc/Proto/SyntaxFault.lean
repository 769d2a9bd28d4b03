import DiscoveryGrpc.Proto.Token

/-!
# What can be wrong with the tokens of a proto file

One constructor per reason for which reading stops, with the tokens and names that the message
shows. The place is kept beside it, as the number of tokens that were still unread.
-/

namespace DiscoveryGrpc.Proto

/-- Why a sequence of tokens is no proto file. -/
inductive SyntaxFault
  | endOfFile
  | expected (wanted found : Token)
  | noIdentifier (found : Token)
  | noNumber (found : Token)
  | noString (found : Token)
  | noOptionValue (found? : Option Token)
  | unsupportedSyntax (name : String)
  | topLevelEnum
  | strayWord (word : String)
  | strayInOptions (found : Token)
  | strayInMessage (found : Token) (message : String)
  | nestedMessage (message : String)
  | duplicateField (message : String)
  | strayInEnum (found : Token) (enum : String)
  | strayInService (found : Token) (service : String)
  | strayWordInService (word service : String)
  | noReturns (rpc : String)
  | streamingRpc (rpc : String)
  | strayAfterRpc (found : Token) (rpc : String)
  | strayInRpc (found : Token) (rpc : String)
  deriving DecidableEq, Repr

/-- The message for a fault, without its place. -/
def SyntaxFault.text : SyntaxFault → String
  | endOfFile => "unexpected end of file"
  | expected wanted found => s!"expected {wanted.label} but found {found.label}"
  | noIdentifier found => s!"expected an identifier but found {found.label}"
  | noNumber found => s!"expected a number but found {found.label}"
  | noString found => s!"expected a string but found {found.label}"
  | noOptionValue found? =>
    s!"expected an option value but found {Token.labelOfOption found?}"
  | unsupportedSyntax name => s!"syntax {name} is not supported"
  | topLevelEnum => "top level enums are not supported"
  | strayWord word => s!"unexpected '{word}'"
  | strayInOptions found => s!"unexpected {found.label} in field options"
  | strayInMessage found message => s!"unexpected {found.label} in message {message}"
  | nestedMessage message => s!"nested message in {message} is not supported"
  | duplicateField message => s!"duplicate field in message {message}"
  | strayInEnum found enum => s!"unexpected {found.label} in enum {enum}"
  | strayInService found service => s!"unexpected {found.label} in service {service}"
  | strayWordInService word service => s!"unexpected '{word}' in service {service}"
  | noReturns rpc => s!"expected returns in rpc {rpc}"
  | streamingRpc rpc => s!"streaming rpc {rpc} is not supported"
  | strayAfterRpc found rpc => s!"unexpected {found.label} after rpc {rpc}"
  | strayInRpc found rpc => s!"unexpected {found.label} in rpc {rpc}"

end DiscoveryGrpc.Proto
