import PoolMarket.Fault

/-!
# Addresses and denoms

Accounts and contracts are named by non-empty runs of lowercase ASCII letters and digits. A denom
names an asset: a coin native to the chain, or a token kept by a contract. The text of a token is its
contract's address behind `cw20/`; all other text names a native coin.
-/

namespace PoolMarket

def Addr.isChar (c : Char) : Bool := c.isLower || c.isDigit

structure Addr where
  text : String
  nonempty : text.toList ≠ []
  chars : text.toList.all Addr.isChar = true
  deriving DecidableEq, Repr

namespace Addr

@[ext] theorem ext {a b : Addr} (h : a.text = b.text) : a = b := by
  cases a; cases b; simp_all

/-- The address with the given text, if that is one. -/
def ofString? (s : String) : Option Addr :=
  if h : s.toList ≠ [] ∧ s.toList.all isChar = true then some ⟨s, h.1, h.2⟩ else none

/-- Reads a text as a denom. The mark decides which kind it has to be: behind it only an address
will do, and without it the text is checked as a native one. -/
def ofString (s : String) : Outcome Addr :=
  match ofString? s with
  | some a => .ok a
  | none => .error (.invalidAddress s)

/-- The text of an address reads back as it, since it is non-empty and of the characters that
addresses have (`Addr.isChar`). -/
theorem ofString?_text (a : Addr) : ofString? a.text = some a := by
  obtain ⟨t, h₁, h₂⟩ := a
  simp only [ofString?]
  rw [dif_pos ⟨h₁, h₂⟩]

/-- An address is read as its own text, with nothing trimmed or normalized. -/
theorem text_of_ofString? {s : String} {a : Addr} (h : ofString? s = some a) : a.text = s := by
  unfold ofString? at h
  split at h
  · cases h; rfl
  · cases h

instance : Ord Addr := ⟨compareOn text⟩

instance : Std.TransOrd Addr := inferInstanceAs (Std.TransCmp (compareOn text))

instance : Std.LawfulEqOrd Addr where
  compare_self {a} := (Std.ReflCmp.compare_self : compareOn text a a = .eq)
  eq_of_compare h := ext (Std.LawfulEqOrd.eq_of_compare (α := String) h)

end Addr

/-! ## Denoms -/

/-- An asset. The text of a native coin is any string here; the texts that the chain allows are
those of `Denom.isNativeText`. -/
inductive Denom where
  | native (text : String)
  | token (contract : Addr)
  deriving DecidableEq, Repr

namespace Denom

def tokenMark : List Char := "cw20/".toList

/-- The characters a native text may hold after its first. -/
def isBodyChar (c : Char) : Bool :=
  c.isAlphanum || c == '/' || c == ':' || c == '.' || c == '_' || c == '-'

/-- A native text: 3 to 128 characters, a letter in front, and not the text of a token. -/
def isNativeText (cs : List Char) : Bool :=
  match cs with
  | [] => false
  | c :: rest =>
    c.isAlpha && rest.all isBodyChar && 3 ≤ cs.length && cs.length ≤ 128 &&
      !tokenMark.isPrefixOf cs

/-- The text of a denom: a native coin's own, or the address of a token behind the mark. -/
def text : Denom → String
  | native t => t
  | token a => String.ofList tokenMark ++ a.text

def isNative : Denom → Bool
  | native _ => true
  | token _ => false

def contract? : Denom → Option Addr
  | native _ => none
  | token a => some a

def invalid (s : String) : Fault := .invalidDenom s []

/-- A native coin with the given text, if that is one of those the chain allows (`isNativeText`).
The texts of tokens are among those it does not. -/
def ofNativeText (s : String) : Outcome Denom :=
  if isNativeText s.toList then .ok (native s) else .error (invalid s)

def ofString (s : String) : Outcome Denom :=
  if tokenMark.isPrefixOf s.toList then
    match Addr.ofString? (String.ofList (s.toList.drop tokenMark.length)) with
    | some a => .ok (token a)
    | none => .error (invalid s)
  else ofNativeText s

/-- The coin in which a pair issues its shares. -/
def sharesOf (pair : Addr) : Denom := native ("factory/" ++ pair.text ++ "/lp")

/-- Whether a denom stands among the native coins or after them, among the tokens. -/
def rank : Denom → Nat
  | native _ => 0
  | token _ => 1

/-- The text that tells denoms of one kind apart. -/
def body : Denom → String
  | native t => t
  | token a => a.text

/-- Two denoms of one kind with one text are the same, so the order that compares kind and text is
one whose equality is that of denoms (`Std.LawfulEqOrd`). -/
theorem eq_of_rank_body {a b : Denom} (hr : a.rank = b.rank) (hb : a.body = b.body) : a = b := by
  cases a <;> cases b <;> simp_all [rank, body, Addr.ext_iff]

/-- Native coins come before tokens; each kind is ordered by its text. -/
instance : Ord Denom := ⟨compareLex (compareOn rank) (compareOn body)⟩

instance : Std.TransOrd Denom :=
  inferInstanceAs (Std.TransCmp (compareLex (compareOn rank) (compareOn body)))

instance : Std.LawfulEqOrd Denom where
  compare_self {a} :=
    (Std.ReflCmp.compare_self : compareLex (compareOn rank) (compareOn body) a a = .eq)
  eq_of_compare {a b} h := by
    obtain ⟨hr, hb⟩ := compareLex_eq_eq.1 h
    exact eq_of_rank_body (Std.LawfulEqOrd.eq_of_compare hr) (Std.LawfulEqOrd.eq_of_compare hb)

end Denom

end PoolMarket
