/-! # Emphasis in messages

Terminal colour and weight codes around a piece of a message. Each closes with the code that undoes
its own effect, so styles nest.
-/

namespace NiosBoard.Style

/-- Puts a piece of text between two escape codes. -/
def wrap (opening closing : Nat) (s : String) : String :=
  "\x1b[" ++ Nat.repr opening ++ "m" ++ s ++ "\x1b[" ++ Nat.repr closing ++ "m"

def bold (s : String) : String := wrap 1 0 s

def dimmed (s : String) : String := wrap 2 0 s

def red (s : String) : String := wrap 91 39 s

def yellow (s : String) : String := wrap 93 39 s

def blue (s : String) : String := wrap 94 39 s

end NiosBoard.Style
