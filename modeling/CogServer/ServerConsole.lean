import CogServer.LineDiscipline

/-! How a console reads a line: the telnet commands in it, its words, and the
command it names. -/
namespace CogServer

open Telnet

namespace Telnet

def transmitBinary : UInt8 := 0

end Telnet

def quote : UInt8 := 34
def blank : UInt8 := 32
def openParen : UInt8 := 40
def semicolon : UInt8 := 59
def openBrace : UInt8 := 123

/-- `simple_tokenize`, on what is left of the line. -/
def simpleTokenizeFrom : ℕ → Bytes → List Bytes
  | 0, _ | _, [] => []
  | fuel + 1, c :: rest =>
    if c = quote then
      rest.takeWhile (· ≠ quote) ::
        simpleTokenizeFrom fuel ((rest.dropWhile (· ≠ quote)).drop 1)
    else if c ≠ blank then
      (c :: rest).takeWhile (· ≠ blank) ::
        simpleTokenizeFrom fuel ((c :: rest).dropWhile (· ≠ blank))
    else simpleTokenizeFrom fuel (rest.dropWhile (· = blank))

/-- `simple_tokenize` -/
def simpleTokenize (line : Bytes) : List Bytes := simpleTokenizeFrom line.length line

/-- `handle_telnet_iac`: whether the line was recognized, and what was sent. -/
def handleTelnetIac : Bytes → Bool × List Bytes
  | [] => (true, [])
  | [_] => (false, [])
  | b :: c :: rest =>
    if b ≠ iac then (false, [])
    else if c = wont ∨ c = dont ∨ c = doIt ∨ c = will then
      match rest with
      | [] => (false, [])
      | a :: rest' =>
        let reply :=
          if c = doIt then
            if a = suppressGoAhead then [cStr [iac, wont, suppressGoAhead, 0]]
            else if a = Telnet.echo then [cStr [iac, wont, Telnet.echo, 0]]
            else if a = transmitBinary then [cStr [iac, will, transmitBinary, 0]]
            else [cStr [iac, wont, a, 0]]
          else if c = will ∧ a = linemode then [cStr [iac, dont, linemode, 0]]
          else []
        let (ok, replies) := handleTelnetIac rest'
        (ok, reply ++ replies)
    else if c = ip ∨ c = ao ∨ c = susp then
      let (ok, replies) := handleTelnetIac rest
      (ok, cStr [newline, 0] :: replies)
    else if c = teof then (false, [])
    else handleTelnetIac rest

/-- What `OnLine` makes of a line once no shell takes it. -/
inductive Dispatch
  /-- Telnet commands; `sent` was replied to them. -/
  | telnet (sent : List Bytes)
  /-- `OnLine(command)` first, to get a shell for this line. -/
  | enter (sent : List Bytes) (command : Bytes)
  | command (sent : List Bytes)
  deriving DecidableEq, Repr

/-- The telnet test and the bracket tests of `OnLine`. -/
def dispatch (line : Bytes) : Dispatch :=
  let (handled, sent) :=
    if byteAt line 0 = iac ∧ line.length < 40 then handleTelnetIac line else (false, [])
  if handled then .telnet sent
  else if byteAt line 0 = openParen ∨ byteAt line 0 = semicolon then .enter sent (ascii "scm")
  else if byteAt line 0 = openBrace then .enter sent (ascii "json")
  else .command sent

/-- The reply to an unknown command, in a buffer of 256 bytes. -/
def notFound (cmdName : Bytes) : Bytes :=
  (ascii "command \"" ++ cStr cmdName ++ ascii "\" not found\n").take 255

example : simpleTokenize (ascii " a \"b c\"d ") = [ascii "a", ascii "b c", ascii "d"] := by decide
example : dispatch (ascii "(f)") = .enter [] (ascii "scm") := by decide

end CogServer
