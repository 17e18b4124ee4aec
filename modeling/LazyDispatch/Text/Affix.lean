/-!
# Beginnings and endings

Whether one text begins or ends another, character by character.
-/

namespace LazyDispatch.Text

/-- Whether `start` begins a text. -/
def begins (start text : String) : Bool :=
  start.toList.isPrefixOf text.toList

/-- Whether `final` ends a text. -/
def ends (final text : String) : Bool :=
  final.toList.isSuffixOf text.toList

end LazyDispatch.Text
