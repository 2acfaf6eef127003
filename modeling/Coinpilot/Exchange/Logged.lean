import Coinpilot.Exchange.Keys
import Coinpilot.Exchange.Limits
import Coinpilot.Lib.Replace

/-!
# What the client writes to the log

A call that fails is logged, and the text of its exception may quote the request with the key. `redact`
takes both halves of the key out of such a text. What a line then carries of them stands in its own
fixed words (`logged_without_credentials`).
-/

set_option autoImplicit false

namespace Coinpilot.Exchange

open Coinpilot.Lib

/-- One line. `words` are those of the source, and `detail` is the text of an exception. -/
structure LogLine where
  words : String
  detail : String
  deriving DecidableEq, Repr

def LogLine.text (line : LogLine) : String := line.words ++ line.detail

/-- `text.replace(old, new)`. -/
def replaceText (text old new : String) : String := String.ofList (replace old.toList new.toList text.toList)

/-- Nothing that is written may carry a credential, whatever produced it. -/
def redact (credentials : Option Credentials) (text : String) : String :=
  match credentials with
  | none => text
  | some c => replaceText (replaceText text c.apiKey "***") c.apiSecret "***"

/-- What `_safely` writes of a call that raised. `text` is that of the exception. -/
def safelyLine (credentials : Option Credentials) (endpoint : String) (refusals : Bool)
    (failure : CallFailure) (text : String) : LogLine :=
  match failure with
  | .secretUnreadable =>
      if refusals then ⟨"kraken " ++ endpoint ++ " refused the key", ""⟩
      else ⟨"kraken " ++ endpoint ++ " failed: the secret does not decode", ""⟩
  | .krakenError errors =>
      if refusals && isRefusal errors then ⟨"kraken " ++ endpoint ++ " refused the key", ""⟩
      else if refusals && isLockout errors then
        ⟨"kraken " ++ endpoint ++ " is locked out after repeated invalid keys", ""⟩
      else ⟨"kraken " ++ endpoint ++ " failed: ", redact credentials text⟩
  | .other => ⟨"kraken " ++ endpoint ++ " failed: ", redact credentials text⟩

/-- What `add_order` writes of a request that raised. -/
def addOrderLine (credentials : Option Credentials) (failure : CallFailure) (text : String) : LogLine :=
  match failure with
  | .secretUnreadable => ⟨"kraken AddOrder not sent: the secret does not decode", ""⟩
  | .krakenError errors =>
      if isDefinitiveRefusal errors then
        ⟨"kraken AddOrder refused: ", redact credentials (", ".intercalate (errors.map Json.pyStr))⟩
      else ⟨"kraken AddOrder answer unknown: ", redact credentials text⟩
  | .other => ⟨"kraken AddOrder answer unknown: ", redact credentials text⟩

/-- A line that some failed call of these credentials writes. -/
inductive Logged (credentials : Credentials) : LogLine → Prop where
  | read (endpoint : String) (refusals : Bool) (failure : CallFailure) (text : String) :
      Logged credentials (safelyLine (some credentials) endpoint refusals failure text)
  | order (failure : CallFailure) (text : String) :
      Logged credentials (addOrderLine (some credentials) failure text)

/-- One half of a key, as Kraken issues it: not empty, and without a blank or a star. -/
structure Issued (half : String) : Prop where
  nonempty : half.toList ≠ []
  blank : ' ' ∉ half.toList
  star : '*' ∉ half.toList

/-- One text stands in another. -/
def Occurs (word text : String) : Prop := word.toList <:+: text.toList

instance (word text : String) : Decidable (Occurs word text) :=
  inferInstanceAs (Decidable (word.toList <:+: text.toList))

section Redacting

variable {credentials : Credentials} {half : String}

theorem toList_replaceText (text old new : String) :
    (replaceText text old new).toList = replace old.toList new.toList text.toList := by
  simp [replaceText]

theorem Issued.apart (h : Issued half) : Apart half.toList "***".toList := by
  intro c hc hstar
  have heq : c = '*' := by simpa using hstar
  exact h.star (heq ▸ hc)

/-- A redacted text carries neither half. The key does not come back when the secret is taken out. -/
theorem not_occurs_redact (hkey : Issued credentials.apiKey) (hsecret : Issued credentials.apiSecret)
    (hhalf : half = credentials.apiKey ∨ half = credentials.apiSecret) (text : String) :
    ¬Occurs half (redact (some credentials) text) := by
  have hstars : "***".toList ≠ [] := by simp
  intro h
  rw [Occurs, redact, toList_replaceText] at h
  rcases hhalf with rfl | rfl
  · have hbefore := infix_of_infix_replace hstars hsecret.nonempty hkey.nonempty hkey.apart h
    rw [toList_replaceText] at hbefore
    exact not_infix_replace hstars hkey.nonempty hkey.apart _ hbefore
  · exact not_infix_replace hstars hsecret.nonempty hsecret.apart _ h

/-- Where the words of a line end in a blank, half a key stands before it or after it. -/
theorem occurs_text {line : LogLine} (hhalf : Issued half) (hwords : ∃ before, line.words = before ++ " ")
    (h : Occurs half line.text) : Occurs half line.words ∨ Occurs half line.detail := by
  obtain ⟨before, hwords⟩ := hwords
  rw [Occurs, LogLine.text, String.toList_append, hwords, String.toList_append, List.append_assoc] at h
  rcases infix_append_cons hhalf.blank h with h | h
  · left
    rw [Occurs, hwords, String.toList_append]
    exact h.trans (List.prefix_append _ _).isInfix
  · exact Or.inr h

/-- The detail of a line is redacted, and its words end in a blank before it. -/
theorem Logged.shape {line : LogLine} (h : Logged credentials line) :
    line.detail = "" ∨ ((∃ before, line.words = before ++ " ") ∧
      ∃ text, line.detail = redact (some credentials) text) := by
  cases h with
  | read endpoint refusals failure text =>
    have hfailed : "kraken " ++ endpoint ++ " failed: " = "kraken " ++ endpoint ++ " failed:" ++ " " := by
      rw [show (" failed: " : String) = " failed:" ++ " " from rfl, ← String.append_assoc]
    cases failure with
    | secretUnreadable =>
      left
      rw [safelyLine]
      split
      · rfl
      · rfl
    | krakenError errors =>
      rw [safelyLine]
      split
      · exact Or.inl rfl
      · split
        · exact Or.inl rfl
        · exact Or.inr ⟨⟨_, hfailed⟩, _, rfl⟩
    | other => exact Or.inr ⟨⟨_, hfailed⟩, _, rfl⟩
  | order failure text =>
    cases failure with
    | secretUnreadable => exact Or.inl rfl
    | krakenError errors =>
      rw [addOrderLine]
      split
      · exact Or.inr ⟨⟨"kraken AddOrder refused:", rfl⟩, _, rfl⟩
      · exact Or.inr ⟨⟨"kraken AddOrder answer unknown:", rfl⟩, _, rfl⟩
    | other => exact Or.inr ⟨⟨"kraken AddOrder answer unknown:", rfl⟩, _, rfl⟩

/-- Whatever raised and whatever it says: a line of the log carries of the key and of its secret only
what its own words carry. -/
theorem logged_without_credentials (hkey : Issued credentials.apiKey) (hsecret : Issued credentials.apiSecret)
    {line : LogLine} (hline : Logged credentials line)
    (hhalf : half = credentials.apiKey ∨ half = credentials.apiSecret) :
    Occurs half line.text → Occurs half line.words := by
  intro h
  have hissued : Issued half := by
    rcases hhalf with rfl | rfl
    · exact hkey
    · exact hsecret
  rcases hline.shape with hdetail | ⟨hwords, text, hdetail⟩
  · rw [LogLine.text, hdetail] at h
    simpa [Occurs] using h
  · rcases occurs_text hissued hwords h with h | h
    · exact h
    · rw [hdetail] at h
      exact absurd h (not_occurs_redact hkey hsecret hhalf text)

end Redacting

/-- A key and its secret. -/
def quotedKey : Credentials := ⟨"aB9+", "c2VjcmV0"⟩

/-- A transport that quotes both halves. -/
theorem logged_without_credentials_quoted :
    let line := safelyLine (some quotedKey) "Balance" false .other "POST aB9+c2VjcmV0 aB9aB9+"
    line.text = "kraken Balance failed: POST ****** aB9***" ∧ ¬Occurs quotedKey.apiKey line.text ∧
      ¬Occurs quotedKey.apiSecret line.text := by
  have hkey : Issued quotedKey.apiKey := ⟨by decide, by decide, by decide⟩
  have hsecret : Issued quotedKey.apiSecret := ⟨by decide, by decide, by decide⟩
  refine ⟨by decide +kernel, fun h => ?_, fun h => ?_⟩
  · have hwords := logged_without_credentials hkey hsecret (.read "Balance" false .other _) (Or.inl rfl) h
    revert hwords
    decide +kernel
  · have hwords := logged_without_credentials hkey hsecret (.read "Balance" false .other _) (Or.inr rfl) h
    revert hwords
    decide +kernel

end Coinpilot.Exchange
