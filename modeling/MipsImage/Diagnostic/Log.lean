/-
The log: every diagnostic of a run in order, up to a limit on errors.

Problems are collected rather than raised, so that one run reports as many of
them as it can.  Once the limit is reached the next error is replaced by a
single notice, and the error count standing one above the limit is what marks
the log as exceeded.  Warnings are never cut off.
-/
import MipsImage.Diagnostic

namespace MipsImage

structure Log where
  /-- How many errors are accepted; nothing means no limit. -/
  limit : Option Nat
  messages : Array Diagnostic
  errors : Nat
  warnings : Nat
  deriving DecidableEq, Repr

namespace Log

def empty (limit : Option Nat) : Log :=
  { limit, messages := #[], errors := 0, warnings := 0 }

/-- What stands in the log in place of the first error over the limit. -/
def limitNotice : Diagnostic :=
  { level := .error, location := none, text := "Maximum error count exceeded; halting assembly" }

def recordError (log : Log) (d : Diagnostic) : Log :=
  { log with errors := log.errors + 1, messages := log.messages.push d }

def add (log : Log) (d : Diagnostic) : Log :=
  match d.level with
  | .info => { log with messages := log.messages.push d }
  | .warning => { log with warnings := log.warnings + 1, messages := log.messages.push d }
  | .error =>
    match log.limit with
    | none => log.recordError d
    | some limit =>
      if log.errors < limit then log.recordError d
      else if log.errors = limit then log.recordError limitNotice
      else log

def addAll (log : Log) (ds : List Diagnostic) : Log :=
  ds.foldl add log

def info (log : Log) (location : Option Location) (text : String) : Log :=
  log.add { level := .info, location, text }

def warning (log : Log) (location : Option Location) (text : String) : Log :=
  log.add { level := .warning, location, text }

def error (log : Log) (location : Option Location) (text : String) : Log :=
  log.add { level := .error, location, text }

def hasErrors (log : Log) : Bool :=
  0 < log.errors

def hasWarnings (log : Log) : Bool :=
  0 < log.warnings

/-- Whether an error has been dropped for being over the limit. -/
def exceeded (log : Log) : Bool :=
  log.limit.any (· < log.errors)

/-- Forget every message and keep the limit. -/
def clear (log : Log) : Log :=
  empty log.limit

end Log
end MipsImage
