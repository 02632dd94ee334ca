import Crosswalk.Text.Boundary

/-!
Upper and lower case of text in every script. A letter may become several characters (`ß` is `SS`
in upper case), and a capital sigma at the end of a word becomes the final small sigma.
-/

namespace Crosswalk.Text

/-- A run of letters with one distance to their other form. -/
structure CaseRun where
  first : Nat
  length : Nat
  distance : Int

namespace CaseRun

/-- Runs in turn, each given by what lies between it and the end of the one before. -/
def inTurn (start : Nat) : List (Nat × Nat × Int) → List CaseRun
  | [] => []
  | (gap, length, distance) :: rest =>
    ⟨start + gap, length, distance⟩ :: inTurn (start + gap + length) rest

def inverse (r : CaseRun) : CaseRun :=
  ⟨(Int.ofNat r.first + r.distance).toNat, r.length, -r.distance⟩

/-- Shift `n` by the distance of the run that holds it. -/
def shift (runs : List CaseRun) (n : Nat) : Nat :=
  match runs.find? fun r => r.first ≤ n && n < r.first + r.length with
  | some r => (Int.ofNat n + r.distance).toNat
  | none => n

end CaseRun

/-- Runs of pairs above ASCII of a capital and its small letter. -/
def pairs : List CaseRun := CaseRun.inTurn 0 <|
  List.map (fun (gap, count) => (gap, 2 * count, 1)) [
  (256,24), (2,3), (1,8), (1,23), (1,3), (3,2), (1,1), (2,1), (4,1), (5,1), (6,3), (1,1), (3,1),
  (1,1), (2,2), (1,1), (2,1), (15,8), (1,9), (4,1), (2,20), (2,9), (7,1), (4,1), (3,5), (288,2),
  (2,1), (96,12), (7,1), (1,1), (100,17), (8,27), (1,7), (1,48), (6352,75), (10,48), (643,1),
  (2779,1), (5,3), (5,1), (1,1), (9,50), (7,2), (3,1), (31052,23), (18,14), (134,7), (2,31), (9,2),
  (1,5), (3,1), (3,2), (2,10), (10,8), (3,2), (5,1), (4,2), (27,1)
]

/-- Small letters above ASCII away from their capitals. -/
def smallLetters : List CaseRun := CaseRun.inTurn 0 [
  (224,23,-32), (1,7,-32), (0,1,121), (128,1,195), (20,1,97), (4,1,163), (3,1,130), (32,1,56),
  (6,1,-2), (2,1,-2), (2,1,-2), (16,1,-79), (21,1,-2), (75,2,10815), (15,1,10783), (0,1,10780),
  (0,1,10782), (0,1,-210), (0,1,-206), (1,2,-205), (1,1,-202), (1,1,-203), (0,1,42319), (3,1,-205),
  (0,1,42315), (1,1,-207), (1,1,42280), (0,1,42308), (1,1,-209), (0,1,-211), (0,1,42308),
  (0,1,10743), (0,1,42305), (2,1,-211), (1,1,10749), (0,1,-213), (2,1,-214), (7,1,10727),
  (2,1,-218), (1,1,42307), (0,1,-218), (3,1,42282), (0,1,-218), (0,1,-69), (0,2,-217), (0,1,-71),
  (5,1,-219), (10,1,42261), (0,1,42258), (220,3,130), (46,1,-38), (0,3,-37), (1,17,-32), (1,9,-32),
  (0,1,-64), (0,2,-63), (8,1,-8), (26,1,7), (0,1,-116), (60,32,-32), (0,16,-80), (111,1,-15),
  (145,38,-48), (2889,43,3008), (2,3,3008), (760,6,-8), (2427,1,35332), (3,1,3814), (16,1,35384),
  (369,8,8), (8,6,8), (10,8,8), (8,8,8), (8,6,8), (11,1,8), (1,1,8), (1,1,8), (1,1,8), (8,8,8),
  (8,2,74), (0,4,86), (0,2,100), (0,2,128), (0,2,112), (0,2,126), (50,2,8), (30,2,8), (14,2,8),
  (3,1,7), (360,1,-28), (33,16,-16), (848,26,-26), (1862,48,-48), (5,1,-10795), (0,1,-10792),
  (153,38,-7264), (1,1,-7264), (5,1,-7264), (31334,1,48), (958,1,-928), (28,80,-38864),
  (21377,26,-32), (1229,40,-40), (136,36,-40), (155,11,-39), (1,15,-39), (1,7,-39), (1,2,-39),
  (1795,51,-64), (3021,32,-32), (21888,32,-32), (31394,34,-34)
]

/-- Letters with the capital of another letter. -/
def otherSmallLetters : List CaseRun := CaseRun.inTurn 0 [
  (181,1,743), (123,1,-232), (77,1,-300), (69,1,-1), (2,1,-1), (2,1,-1), (38,1,-1), (338,1,84),
  (124,1,-31), (13,1,-62), (0,1,-57), (3,1,-47), (0,1,-54), (25,1,-86), (0,1,-80), (3,1,-96),
  (6282,1,-6254), (0,1,-6253), (0,1,-6244), (0,2,-6242), (0,1,-6243), (0,1,-6236), (0,1,-6181),
  (0,1,35266), (530,1,-59), (290,1,-7205)
]

/-- Letters with the small form of another capital. -/
def otherCapitals : List CaseRun := CaseRun.inTurn 0 [
  (453,1,1), (2,1,1), (2,1,1), (38,1,1), (513,1,-60), (6825,1,-7615), (233,8,-8), (8,8,-8),
  (8,8,-8), (12,1,-9), (15,1,-9), (47,1,-9), (297,1,-7517), (3,1,-8383), (0,1,-8262)
]

/-- Where in its run of pairs a letter stands. -/
def placeInPairs? (n : Nat) : Option Nat :=
  (pairs.find? fun r => r.first ≤ n && n < r.first + r.length).map fun r => n - r.first

def capital (n : Nat) : Nat :=
  match placeInPairs? n with
  | some place => if place % 2 = 0 then n else n - 1
  | none => CaseRun.shift (smallLetters ++ otherSmallLetters) n

def small (n : Nat) : Nat :=
  match placeInPairs? n with
  | some place => if place % 2 = 0 then n + 1 else n
  | none => CaseRun.shift (smallLetters.map CaseRun.inverse ++ otherCapitals) n

/-- Letters whose capital form is longer than one character, but for those with an iota below. -/
def longCapitals : List (Nat × List Nat) := [
  (0xDF,[0x53,0x53]), (0x149,[0x2BC,0x4E]), (0x1F0,[0x4A,0x30C]), (0x390,[0x399,0x308,0x301]),
  (0x3B0,[0x3A5,0x308,0x301]), (0x587,[0x535,0x552]), (0x1E96,[0x48,0x331]), (0x1E97,[0x54,0x308]),
  (0x1E98,[0x57,0x30A]), (0x1E99,[0x59,0x30A]), (0x1E9A,[0x41,0x2BE]), (0x1F50,[0x3A5,0x313]),
  (0x1F52,[0x3A5,0x313,0x300]), (0x1F54,[0x3A5,0x313,0x301]), (0x1F56,[0x3A5,0x313,0x342]),
  (0x1FB2,[0x1FBA,0x399]), (0x1FB3,[0x391,0x399]), (0x1FB4,[0x386,0x399]), (0x1FB6,[0x391,0x342]),
  (0x1FB7,[0x391,0x342,0x399]), (0x1FBC,[0x391,0x399]), (0x1FC2,[0x1FCA,0x399]),
  (0x1FC3,[0x397,0x399]), (0x1FC4,[0x389,0x399]), (0x1FC6,[0x397,0x342]),
  (0x1FC7,[0x397,0x342,0x399]), (0x1FCC,[0x397,0x399]), (0x1FD2,[0x399,0x308,0x300]),
  (0x1FD3,[0x399,0x308,0x301]), (0x1FD6,[0x399,0x342]), (0x1FD7,[0x399,0x308,0x342]),
  (0x1FE2,[0x3A5,0x308,0x300]), (0x1FE3,[0x3A5,0x308,0x301]), (0x1FE4,[0x3A1,0x313]),
  (0x1FE6,[0x3A5,0x342]), (0x1FE7,[0x3A5,0x308,0x342]), (0x1FF2,[0x1FFA,0x399]),
  (0x1FF3,[0x3A9,0x399]), (0x1FF4,[0x38F,0x399]), (0x1FF6,[0x3A9,0x342]),
  (0x1FF7,[0x3A9,0x342,0x399]), (0x1FFC,[0x3A9,0x399]), (0xFB00,[0x46,0x46]), (0xFB01,[0x46,0x49]),
  (0xFB02,[0x46,0x4C]), (0xFB03,[0x46,0x46,0x49]), (0xFB04,[0x46,0x46,0x4C]), (0xFB05,[0x53,0x54]),
  (0xFB06,[0x53,0x54]), (0xFB13,[0x544,0x546]), (0xFB14,[0x544,0x535]), (0xFB15,[0x544,0x53B]),
  (0xFB16,[0x54E,0x546]), (0xFB17,[0x544,0x53D])
]

/-- The capital form of the letters with an iota below, which is written behind it. -/
def capitalsWithIota? (n : Nat) : Option (List Nat) :=
  if n < 0x1F80 || 0x1FB0 ≤ n then none
  else some [(if n < 0x1F90 then 0x1F08 else if n < 0x1FA0 then 0x1F28 else 0x1F68) + n % 8, 0x399]

/-- Boundaries of the letters that have a case. -/
def casedBoundaries : Array Nat := List.toArray <| runEnds 0 [
  65,26,6,26,47,1,10,1,4,1,5,23,1,31,1,195,1,4,4,208,1,27,192,4,2,2,3,3,1,1,6,1,1,3,1,1,1,20,1,83,1,
  139,8,166,1,38,9,41,2839,38,1,1,5,1,2,43,2,3,672,86,2,6,2178,9,7,43,2,3,64,44,63,13,1,34,101,278,
  2,6,2,38,2,6,2,8,1,1,1,1,1,1,1,31,2,53,1,7,1,1,3,3,1,7,3,4,2,6,4,13,5,3,1,7,261,1,4,1,2,10,1,1,3,
  5,6,1,1,1,1,1,1,4,1,6,4,1,2,4,5,5,4,1,17,32,3,2,817,52,1814,124,2,103,6,4,3,2,12,38,1,1,5,1,30994,
  46,18,28,134,78,1,23,3,4,1,59,5,2,1,1,1,5,27,2,3,1,821,43,5,9,7,80,20288,7,12,5,1033,26,6,26,1189,
  80,96,36,4,36,116,11,1,15,1,7,1,2,1,11,1,15,1,7,1,2,1731,51,13,51,2989,64,21856,64,25984,85,1,71,
  1,2,2,1,2,2,2,4,1,12,1,1,1,7,1,65,1,4,2,8,1,7,1,28,1,4,1,5,1,1,3,7,1,340,2,25,1,25,1,31,1,25,1,31,
  1,25,1,31,1,25,1,31,1,25,1,8,1844,10,1,20,2529,68,2028,26,6,26,6,26 ]

/-- Boundaries of the characters that are passed over when the end of a word is looked for. -/
def caseIgnorableBoundaries : Array Nat := List.toArray <| runEnds 0 [
  39,1,6,1,11,1,35,1,1,1,71,1,4,1,1,1,4,1,2,2,503,192,4,2,4,1,9,2,1,1,251,7,207,1,5,1,49,45,1,1,1,2,
  1,2,1,1,44,1,11,6,10,11,1,1,35,1,10,21,16,1,101,8,1,10,1,4,33,1,1,1,30,27,91,11,58,11,4,1,2,1,24,
  24,43,3,44,1,7,2,6,8,41,58,55,1,1,1,4,8,4,1,3,7,10,2,13,1,15,1,58,1,4,4,8,1,20,2,26,1,2,2,57,1,4,
  2,4,2,2,3,3,1,30,2,3,1,11,2,57,1,4,5,1,2,4,1,20,2,22,6,1,1,58,1,2,1,1,4,8,1,7,2,11,2,30,1,61,1,12,
  1,50,1,3,1,55,1,1,3,5,3,1,4,7,2,11,2,29,1,58,1,2,1,6,1,5,2,20,2,28,2,57,2,4,4,8,1,20,2,29,1,72,1,
  7,3,1,1,90,1,2,7,11,9,98,1,2,9,9,1,1,6,74,2,27,1,1,1,1,1,55,14,1,5,1,2,5,11,1,36,9,1,102,4,1,6,1,
  2,2,2,25,2,4,3,16,4,13,1,2,2,6,1,15,1,94,1,608,3,946,3,29,2,30,2,30,2,64,2,1,7,8,1,2,11,3,1,5,1,
  45,5,51,1,65,2,34,1,118,3,4,2,9,1,6,3,219,2,2,1,58,1,1,7,1,1,1,1,2,8,6,10,2,1,39,1,8,31,49,4,48,1,
  1,5,1,1,5,1,40,9,12,2,32,4,2,2,1,3,56,1,1,2,3,1,1,3,58,8,2,2,64,6,82,3,1,13,1,7,4,1,6,1,3,2,50,63,
  13,1,34,101,445,1,1,3,11,3,13,3,13,3,13,2,12,5,8,2,10,1,2,1,2,5,49,5,1,10,1,1,13,1,16,13,51,33,
  2955,2,113,3,125,1,15,1,96,32,47,1,469,1,36,4,3,5,5,1,93,6,93,3,28438,1,1250,6,270,1,98,4,1,10,1,
  1,28,4,80,2,14,34,78,1,23,3,103,3,3,2,8,1,3,1,4,1,25,2,5,1,151,2,26,18,13,1,38,8,25,11,46,3,48,1,
  2,4,2,2,17,1,21,2,66,6,2,2,2,2,12,1,8,1,35,1,11,1,51,1,1,3,2,2,5,2,1,1,27,1,14,2,5,2,1,1,100,5,9,
  3,121,1,2,1,4,1,20272,1,147,17,573,16,3,1,12,16,34,1,2,1,169,1,7,1,6,1,11,1,35,1,1,1,47,1,45,2,67,
  1,21,3,513,1,226,1,149,5,1029,6,1,42,1,9,582,3,1,2,5,4,40,3,4,1,165,2,573,4,387,2,153,11,49,4,123,
  1,54,15,41,1,2,2,10,3,49,4,2,2,2,1,4,1,10,1,50,3,36,5,1,8,62,1,12,2,52,9,10,4,2,1,95,3,2,1,1,2,6,
  1,160,1,3,8,21,2,57,2,3,1,37,7,3,5,195,8,2,3,1,1,23,1,84,6,1,1,4,2,1,2,238,4,6,2,1,2,27,2,85,8,2,
  1,1,2,106,1,1,1,2,6,1,1,101,3,2,4,1,5,259,9,1,2,256,2,1,1,4,1,144,4,2,2,4,1,32,10,40,6,2,4,8,1,9,
  6,2,3,46,13,1,2,406,7,1,6,1,1,82,22,2,7,1,2,1,2,122,6,3,1,1,2,1,7,1,1,72,2,3,1,1,1,347,2,5435,9,
  14007,5,59,7,9,4,1035,1,63,17,64,2,1,2,16395,4,1,7,1,2,3230,2,1,4,4700,46,2,23,544,3,9,16,2,7,30,
  4,148,3,1979,55,4,50,8,1,14,1,22,5,1,15,1360,7,1,17,2,7,1,2,1,5,261,14,368,1,61,4,1504,7,109,8,
  2735,5,789505,1,30,96,128,240 ]

def upperChar (c : Char) : List Char :=
  if c.toNat < 128 then [c.toUpper]
  else match ((longCapitals.lookup c.toNat).or (capitalsWithIota? c.toNat)) with
    | some ns => ns.map Char.ofNat
    | none => [Char.ofNat (capital c.toNat)]

/-- The small form of a letter away from the end of a word. -/
def lowerChar (c : Char) : List Char :=
  if c.toNat < 128 then [c.toLower]
  else if c == '\u0130' then ['i', '\u0307']
  else [Char.ofNat (small c.toNat)]

def isCased (c : Char) : Bool := withinBoundaries casedBoundaries c.toNat

def isCaseIgnorable (c : Char) : Bool := withinBoundaries caseIgnorableBoundaries c.toNat

/-- A capital sigma ends a word if the nearest character before it that counts has a case and the
nearest after it has none. `before` is reversed. -/
def sigmaEndsWord (before after : List Char) : Bool :=
  let cased (cs : List Char) : Bool :=
    match cs.dropWhile isCaseIgnorable with
    | c :: _ => isCased c
    | [] => false
  cased before && !cased after

def upper (cs : List Char) : List Char := cs.flatMap upperChar

/-- Lower case of `cs`, which stands after the reversed text `before`. -/
def lowerAfter (before : List Char) : List Char → List Char
  | [] => []
  | c :: rest =>
    (if c == '\u03A3' && sigmaEndsWord before rest then ['\u03C2'] else lowerChar c) ++
      lowerAfter (c :: before) rest

def lower (cs : List Char) : List Char := lowerAfter [] cs

end Crosswalk.Text
