import ApiContract.Rendering.Fragment

namespace ApiContract

structure Graphic where
  on : String
  off : String

namespace Graphic

def escape (codes : String) : String := "\x1b[" ++ codes ++ "m"

def apply (graphic : Graphic) (text : String) : String :=
  escape graphic.on ++ text ++ escape graphic.off

def bold : Graphic := ⟨"1", "0"⟩
def underline : Graphic := ⟨"4", "0"⟩
def brightRed : Graphic := ⟨"91", "39"⟩
def brightGreen : Graphic := ⟨"92", "39"⟩
def brightBlue : Graphic := ⟨"94", "39"⟩
def brightWhite : Graphic := ⟨"97", "39"⟩

def rgb (red green blue : Nat) : Graphic :=
  ⟨"38;2;" ++ toString red ++ ";" ++ toString green ++ ";" ++ toString blue, "39"⟩

end Graphic

open Graphic

/-- The graphics of a tag, the innermost one first. -/
def Tag.graphics : Tag → List Graphic
  | neutral | indent | newline => []
  | header => [rgb 0x75 0x50 0x7B]
  | title => [brightWhite, bold]
  | caption => [bold]
  | keyword => [rgb 0x75 0x50 0x7B, bold]
  | binder => [rgb 0x72 0x9F 0xCF, bold]
  | collection => [rgb 0x8F 0x59 0x02, bold]
  | url => [rgb 0x3B 0x5D 0x7D, bold]
  | numeric => [rgb 0xAD 0x7F 0xA8, bold]
  | string => [rgb 0x4E 0x9A 0x06, bold]
  | expression => [rgb 0x34 0x65 0xA4]
  | key => [rgb 0x60 0x98 0x9A, bold]
  | bullet => [brightWhite, bold]
  | operator => [rgb 204 0 0, bold]
  | bracket => [rgb 153 153 153, bold]
  | highlight => [brightRed, bold, underline]

/-- A newline is a line feed whatever its text is. -/
def Renderer.terminal : Renderer := fun tag text =>
  if tag = .newline then "\n" else tag.graphics.foldl (fun text graphic => graphic.apply text) text

end ApiContract
