import Blueprint.Proofs.CosmeticProblems
import Blueprint.Proofs.ValueLikeness

/-!
What the repairs of spacing and spelling keep of a document: all that can be seen of its text, and its
value as long as its tokens stay alike.
-/

namespace Blueprint

/-- The tokens of a text. -/
def tokensOf (text : String) : Yaml.Scan :=
  .ofList .document text.toList

/-- The tokens of two texts are alike, up to the spelling of some words. -/
def TokensAlike (words : List String) (text text' : String) : Prop :=
  Yaml.Scan.Alike ⟨.ofText text, .ofText text', words⟩ (tokensOf text) (tokensOf text')

instance (words : List String) (text text' : String) : Decidable (TokensAlike words text text') :=
  inferInstanceAs (Decidable (Yaml.Scan.Alike ..))

namespace Fix

end Fix

end Blueprint
