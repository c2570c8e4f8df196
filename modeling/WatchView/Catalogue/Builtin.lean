import WatchView.Rule
/-!
# Built-in rules

Two rules list the vector registers of the processor, under names that are
no types of a program; they are chosen by a tag of the variable. A third
rule, loaded on request, shows strings of the standard library by their
characters. Loaded first, all of them give way to the rules of files.
-/

namespace WatchView

namespace Builtin

/-- Where the built-in rules come from. -/
def origin : String := "<builtin>"

/-- A register as a child, in a base format; the letter tells the formats
apart. -/
def register (number : Nat) (letter format : String) : ExpandItem :=
  .item { name := s!"xmm{number}{letter}", value := s!"xmm{number},{format}" }

/-- A bank of registers. -/
def bank (name : String) (registers : List ExpandItem) : Visualizer :=
  { name, expand := some { hideRawView := true, items := registers } }

/-- The first eight registers as rows of floats. -/
def sse : Visualizer :=
  bank "$SSE" ((List.range 8).map fun n => register n "f" "vf32")

/-- Sixteen registers as rows of doubles, and the upper eight as rows of
floats. -/
def sse2 : Visualizer :=
  bank "$SSE2"
    ((List.range 16).map (fun n => register n "d" "vf64") ++
      (List.range' 8 8).map fun n => register n "f" "vf32")

/-- The type of the standard library's strings. -/
def stringType : String :=
  "std::__1::basic_string<char, std::__1::char_traits<char>, std::__1::allocator<char> >"

/-- Strings by their characters. -/
def string : Visualizer :=
  { name := stringType,
    display := [{ value := "\x7bthis->c_str(),s\x7d" }],
    stringView := [{ value := "this->c_str()" }] }

/-- The built-in rules, with the one for strings or without. -/
def file (withStrings : Bool) : RuleFile :=
  { origin, visualizers := [sse, sse2] ++ if withStrings then [string] else [] }

end Builtin

end WatchView
