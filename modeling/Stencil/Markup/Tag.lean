import Stencil.Text.Naming

/-!
# Tags

What the name of an element says about its contents. Names are compared without regard to the case
of ASCII letters.
-/

namespace Stencil.Markup

/-- How the contents of an element are read. -/
inductive ContentModel
  /-- The contents are skipped up to the end tag. -/
  | raw
  /-- The contents are one text up to the end tag. -/
  | rawText
  /-- The contents are markup. -/
  | markup
  deriving DecidableEq, Repr

/-- The elements that never have contents. -/
def voidElements : List String :=
  ["area", "base", "br", "col", "embed", "hr", "img", "input", "link", "meta", "param", "source",
    "track", "wbr"]

/-- Whether the element never has contents. -/
def isVoid (name : String) : Bool := voidElements.any fun v => Text.sameIgnoringCase v name

/-- How the contents of the element are read. -/
def contentModel (name : String) : ContentModel :=
  let lower := Text.lowerAscii name
  if lower = "script" || lower = "style" then .raw
  else if lower = "textarea" || lower = "title" then .rawText
  else .markup

end Stencil.Markup
