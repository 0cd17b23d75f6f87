import UtilityCss.Text.Blank
import UtilityCss.Stylesheet.Basic

/-!
# Printing

A stylesheet prints as its raw texts say, blank for blank. The exception is a block marked pretty:
its children stand one per line, two spaces deeper, and what the raws put before them is ignored.
-/
namespace UtilityCss

/-- How the trees of a forest follow one another: as their raws say, with or without a semicolon
after the last one, or one per line. -/
inductive Layout
  | inline (closing : Bool)
  | lines
  deriving DecidableEq, Repr

def indentLine (line : Text) : Text :=
  if line.isBlankText then [] else ' ' :: ' ' :: line

def indent (t : Text) : Text := ['\n'].intercalate ((t.splitOn '\n').map indentLine)

namespace Content

/-- How the children of a node are laid out. The root is never pretty. -/
def layout (c : Content) : Layout :=
  if c.kind ≠ .root && c.raws.pretty then .lines else .inline c.raws.semicolon

def writeBlock (raws : Raws) (inner : Text) : Text :=
  raws.between ++ '\x7b' :: inner ++ (if raws.pretty then ['\n'] else raws.after) ++ ['\x7d']

def writeImportant (raws : Raws) : Text :=
  if raws.important = [] then " !important".toList else raws.important

/-- A node without what stands before it, given the text of its children. -/
def write (c : Content) (inner : Text) : Text :=
  match c.kind with
  | .root => inner
  | .comment text => '/' :: '*' :: text ++ ['*', '/']
  | .declaration property value important =>
    property ++ c.raws.between ++ value ++ (if important then writeImportant c.raws else []) ++
      c.raws.after
  | .rule selector => selector ++ writeBlock c.raws inner
  | .atRule r =>
    '@' :: r.name ++ (if r.params = [] then [] else c.raws.afterName ++ r.params) ++
      if r.hasBlock then writeBlock c.raws inner else c.raws.after

/-- A node on lines of its own: a semicolon comes directly after its last letter. -/
def writeLine (c : Content) (text : Text) : Text :=
  '\n' :: indent (if c.kind.needsSemicolon then Text.trimRight text ++ [';'] else text)

end Content

def render : Layout → Forest Content → Text
  | _, .nil => []
  | .inline closing, .cons c children rest =>
    c.raws.before ++ c.write (render c.layout children) ++
      (if c.kind.needsSemicolon && (!rest.isEmpty || closing) then [';'] else []) ++
      render (.inline closing) rest
  | .lines, .cons c children rest =>
    c.writeLine (c.write (render c.layout children)) ++ render .lines rest

namespace Stylesheet

def nodeToCss (s : Stylesheet) (id : NodeId) : Text :=
  (s.content id).write (render (s.content id).layout (s.contents id))

def toCss (s : Stylesheet) : Text :=
  render (.inline (s.raws root).semicolon) (s.contents root) ++ (s.raws root).after

end Stylesheet
end UtilityCss
