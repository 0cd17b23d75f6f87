import UtilityCss.ClassName.Registry

/-!
# The built-in registry

A subset of the utilities and variants that a stylesheet framework offers. Pseudo-elements are the
static variants that no compound variant may wrap.
-/
namespace UtilityCss.Registry

def defaultStaticUtilities : List Text :=
  ["block", "box-border", "box-content", "capitalize", "container", "contents", "flex", "grid",
    "hidden", "inline", "inline-block", "inline-flex", "inset-auto", "inset-full", "-inset-full",
    "italic", "line-through", "lowercase", "no-underline", "overline", "sr-only", "truncate",
    "underline", "uppercase"].map String.toList

def defaultFunctionalUtilities : List Text :=
  ["bg", "border", "bottom", "col-span", "fill", "font", "gap", "grid-cols", "h", "inset",
    "inset-x", "inset-y", "leading", "left", "m", "mx", "my", "opacity", "outline", "p", "px",
    "py", "right", "ring", "rotate", "rounded", "scale", "shadow", "space-x", "space-y", "stroke",
    "text", "top", "tracking", "translate-x", "translate-y", "w", "z"].map String.toList

def defaultStaticVariants : List Text :=
  ["2xl", "active", "dark", "disabled", "even", "first", "focus", "focus-visible", "focus-within",
    "hover", "last", "lg", "md", "motion-reduce", "motion-safe", "odd", "print", "sm", "visited",
    "xl"].map String.toList

def defaultPseudoElements : List Text :=
  ["after", "before", "file", "marker", "placeholder", "selection"].map String.toList

def defaultFunctionalVariants : List Text :=
  ["aria", "data", "max", "min", "supports"].map String.toList

def defaultCompoundVariants : List Text :=
  ["group", "has", "in", "not", "peer"].map String.toList

def entries (names : List Text) (kind : VariantKind) (compounds : Bool) :
    List (Text × VariantEntry) :=
  names.map fun name => (name, ⟨kind, compounds⟩)

def builtIn : Registry where
  staticUtilities := defaultStaticUtilities
  functionalUtilities := defaultFunctionalUtilities
  variants :=
    entries defaultStaticVariants .static true ++ entries defaultPseudoElements .static false ++
      entries defaultFunctionalVariants .functional true ++
      entries defaultCompoundVariants .compound true

end UtilityCss.Registry
