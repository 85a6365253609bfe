import SwiftMacros.Emoji.Names
import SwiftMacros.Text.Blank

/-! Emoji by their short names. A skin tone is part of the name, as in `boy_dark_skin_tone`, and
capital letters make no difference. In a text a name stands between colons; one that names nothing
is left as it is. -/

namespace SwiftMacros.Emoji

/-- A list of names with what each stands for, from words in turn. -/
def pairs : List Text → List (Text × Text)
  | name :: value :: ws => (name, value) :: pairs ws
  | _ => []

def toned : List (Text × Text) := pairs (Text.words tonedNames.toList)

def plain : List (Text × Text) := pairs (Text.words plainNames.toList)

def territories : List (Text × Text) := pairs (Text.words territoryNames.toList)

def flags : List (Text × Text) := pairs (Text.words flagNames.toList)

def regions : List (Text × Text) := pairs (Text.words regionNames.toList)

/-- The flag of a territory, by the two letters of its code. -/
def flag (code : Text) : Text := code.map fun c => Char.ofNat (c.toNat - 65 + 0x1F1E6)

/-- The flag of a part of a country: a black flag, its code in letters that do not show, and an end
mark of that kind. -/
def regionFlag (code : Text) : Text :=
  '🏴' :: code.map (fun c => Char.ofNat (c.toNat + 0xE0000)) ++ [Char.ofNat 0xE007F]

def tones : List (String × Char) :=
  [("light", '🏻'), ("medium-light", '🏼'), ("medium", '🏽'), ("medium-dark", '🏾'), ("dark", '🏿')]

/-- An emoji with a skin tone. The tone follows its first character, and takes the place of the mark
that asks for a coloured picture. -/
def withTone (tone : Char) : Text → Text
  | [] => []
  | c :: rest => c :: tone :: (if rest.head? = some '\ufe0f' then rest.drop 1 else rest)

/-- The front of a text that ends in `ending`. -/
def stem? (ending t : Text) : Option Text :=
  if ending.isSuffixOf t then some (t.take (t.length - ending.length)) else none

/-- The emoji of a name with a skin tone at its end. -/
def ofTonedName? (name : Text) : Option Text :=
  tones.findSome? fun (word, tone) => do
    let base ← stem? ('_' :: word.toList ++ "_skin_tone".toList) name
    return withTone tone (← toned.lookup base)

/-- The flag of a territory by its name, with or without `flag_for_` in front. -/
def flagOfName? (name : Text) : Option Text :=
  let lead := "flag_for_".toList
  let place := if lead.isPrefixOf name then name.drop lead.length else name
  ((territories.lookup place).or (flags.lookup name)).map flag

/-- The emoji of a name in lower case. -/
def ofLowerName? (name : Text) : Option Text :=
  (plain.lookup name).or <| (toned.lookup name).or <| (ofTonedName? name).or <|
    (flagOfName? name).or ((regions.lookup name).map regionFlag)

/-- A letter in lower case, as far as names have it: that of ASCII and of Latin-1, and the signs of
the units kelvin and ångström, which count as letters. -/
def lower (c : Char) : Char :=
  let n := c.toNat
  if (65 ≤ n && n ≤ 90) || (0xC0 ≤ n && n ≤ 0xDE && n != 0xD7) then Char.ofNat (n + 32)
  else if n == 0x212A then 'k'
  else if n == 0x212B then 'å'
  else c

/-- The marks that ask for an emoji as text or as a picture, by what they follow a name as. -/
def variants : List (String × Char) := [("-emoji", '\ufe0f'), ("-text", '\ufe0e')]

/-- The emoji of a name in any case, with the mark that it can end in. -/
def ofName? (name : Text) : Option Text :=
  let marked := variants.findSome? fun (ending, mark) =>
    (stem? ending.toList name).map fun base => (base, [mark])
  let (base, mark) := marked.getD (name, [])
  (ofLowerName? (base.map lower)).map (· ++ mark)

/-- The name between colons that a text starts with. No white space occurs in it. -/
def nameAt? : Text → Option Text
  | ':' :: t =>
    let name := t.takeWhile fun c => !(c == ':' || Text.isBlank c)
    if (t.drop name.length).head? == some ':' then some name else none
  | _ => none

/-- A text with emoji in place of their names, but for the first `skip` characters, which are left
out. -/
def replaceFrom (skip : Nat) : Text → Text
  | [] => []
  | c :: t =>
    if 0 < skip then replaceFrom (skip - 1) t
    else match nameAt? (c :: t) with
      | some name => (ofName? name).getD (':' :: name ++ [':']) ++ replaceFrom (name.length + 1) t
      | none => c :: replaceFrom 0 t

/-- A text with emoji in place of their names between colons. -/
def replaceNames (t : Text) : Text := replaceFrom 0 t

end SwiftMacros.Emoji
