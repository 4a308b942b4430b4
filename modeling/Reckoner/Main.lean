import Reckoner.CommandLine.Command

/-!
# The program

It prints the output of one command, or a message on the error channel.
-/

open Reckoner.CommandLine

def main (tokens : List String) : IO UInt32 := do
  match respond tokens with
  | .printed text =>
    IO.println text
    return 0
  | .failed message =>
    IO.eprintln message
    return 1
  | .rejected =>
    IO.eprintln "Usage: reckoner eval|test|words|number|short ARGUMENTS"
    return 2
