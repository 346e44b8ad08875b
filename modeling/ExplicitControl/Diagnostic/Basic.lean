import ExplicitControl.Diagnostic.Code
import ExplicitControl.Span

/-!
Diagnostics: what is told about a failure. A diagnostic points at places, lists the calls that were live,
and may add notes and suggestions.
-/

namespace ExplicitControl

structure Label where
  span : Span
  message : String
  /-- Whether this is the place of the failure itself. -/
  isPrimary : Bool
deriving DecidableEq

structure CallSite where
  call : String
  span : Span
deriving DecidableEq

structure Diagnostic where
  code : ErrorCode
  message : String
  labels : List Label
  /-- The live calls, in the order in which they are told. -/
  callChain : List CallSite
  notes : List String
  suggestions : List String
deriving DecidableEq

namespace Diagnostic

def ofCode (code : ErrorCode) : Diagnostic :=
  ⟨code, "", [], [], [], []⟩

def withMessage (d : Diagnostic) (message : String) : Diagnostic :=
  { d with message }

def withLabel (d : Diagnostic) (span : Span) (message : String) : Diagnostic :=
  { d with labels := d.labels ++ [⟨span, message, true⟩] }

def withSecondaryLabel (d : Diagnostic) (span : Span) (message : String) : Diagnostic :=
  { d with labels := d.labels ++ [⟨span, message, false⟩] }

def withCall (d : Diagnostic) (call : String) (span : Span) : Diagnostic :=
  { d with callChain := d.callChain ++ [⟨call, span⟩] }

def withNote (d : Diagnostic) (note : String) : Diagnostic :=
  { d with notes := d.notes ++ [note] }

def withSuggestion (d : Diagnostic) (suggestion : String) : Diagnostic :=
  { d with suggestions := d.suggestions ++ [suggestion] }

def primarySpan? (d : Diagnostic) : Option Span :=
  (d.labels.find? Label.isPrimary).map Label.span

def marker (isPrimary : Bool) : String :=
  if isPrimary then "-->" else "   "

def text (d : Diagnostic) : String :=
  "error[" ++ d.code.text ++ "]: " ++ d.message ++
    String.join (d.labels.map fun label =>
      "\n  " ++ marker label.isPrimary ++ " " ++ label.span.text ++ ": " ++ label.message) ++
    String.join (d.callChain.map fun site => "\n  = in " ++ site.call ++ " at " ++ site.span.text) ++
    String.join (d.notes.map fun note => "\n  = note: " ++ note) ++
    String.join (d.suggestions.map fun suggestion => "\n  = help: " ++ suggestion)

end Diagnostic

end ExplicitControl
