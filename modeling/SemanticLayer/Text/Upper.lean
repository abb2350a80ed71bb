/-!
Capital letters of all scripts. Most letters have one capital, a few are written with several.
-/
namespace SemanticLayer.Text

/-- Letters beyond ASCII with a single capital, in runs: the first letter, how many there are, the step
between them, and the capital of the first; capitals follow each other by the same step. -/
def capitalRuns : List (Nat × Nat × Nat × Nat) :=
  [(0xB5, 1, 1, 0x39C), (0xE0, 23, 1, 0xC0), (0xF8, 7, 1, 0xD8), (0xFF, 1, 1, 0x178),
   (0x101, 24, 2, 0x100), (0x131, 1, 1, 0x49), (0x133, 3, 2, 0x132), (0x13A, 8, 2, 0x139),
   (0x14B, 23, 2, 0x14A), (0x17A, 3, 2, 0x179), (0x17F, 1, 1, 0x53), (0x180, 1, 1, 0x243),
   (0x183, 2, 2, 0x182), (0x188, 1, 1, 0x187), (0x18C, 1, 1, 0x18B), (0x192, 1, 1, 0x191),
   (0x195, 1, 1, 0x1F6), (0x199, 1, 1, 0x198), (0x19A, 1, 1, 0x23D), (0x19B, 1, 1, 0xA7DC),
   (0x19E, 1, 1, 0x220), (0x1A1, 3, 2, 0x1A0), (0x1A8, 1, 1, 0x1A7), (0x1AD, 1, 1, 0x1AC),
   (0x1B0, 1, 1, 0x1AF), (0x1B4, 2, 2, 0x1B3), (0x1B9, 1, 1, 0x1B8), (0x1BD, 1, 1, 0x1BC),
   (0x1BF, 1, 1, 0x1F7), (0x1C5, 1, 1, 0x1C4), (0x1C6, 1, 1, 0x1C4), (0x1C8, 1, 1, 0x1C7),
   (0x1C9, 1, 1, 0x1C7), (0x1CB, 1, 1, 0x1CA), (0x1CC, 1, 1, 0x1CA), (0x1CE, 8, 2, 0x1CD),
   (0x1DD, 1, 1, 0x18E), (0x1DF, 9, 2, 0x1DE), (0x1F2, 1, 1, 0x1F1), (0x1F3, 1, 1, 0x1F1),
   (0x1F5, 1, 1, 0x1F4), (0x1F9, 20, 2, 0x1F8), (0x223, 9, 2, 0x222), (0x23C, 1, 1, 0x23B),
   (0x23F, 2, 1, 0x2C7E), (0x242, 1, 1, 0x241), (0x247, 5, 2, 0x246), (0x250, 1, 1, 0x2C6F),
   (0x251, 1, 1, 0x2C6D), (0x252, 1, 1, 0x2C70), (0x253, 1, 1, 0x181), (0x254, 1, 1, 0x186),
   (0x256, 2, 1, 0x189), (0x259, 1, 1, 0x18F), (0x25B, 1, 1, 0x190), (0x25C, 1, 1, 0xA7AB),
   (0x260, 1, 1, 0x193), (0x261, 1, 1, 0xA7AC), (0x263, 1, 1, 0x194), (0x264, 1, 1, 0xA7CB),
   (0x265, 1, 1, 0xA78D), (0x266, 1, 1, 0xA7AA), (0x268, 1, 1, 0x197), (0x269, 1, 1, 0x196),
   (0x26A, 1, 1, 0xA7AE), (0x26B, 1, 1, 0x2C62), (0x26C, 1, 1, 0xA7AD), (0x26F, 1, 1, 0x19C),
   (0x271, 1, 1, 0x2C6E), (0x272, 1, 1, 0x19D), (0x275, 1, 1, 0x19F), (0x27D, 1, 1, 0x2C64),
   (0x280, 1, 1, 0x1A6), (0x282, 1, 1, 0xA7C5), (0x283, 1, 1, 0x1A9), (0x287, 1, 1, 0xA7B1),
   (0x288, 1, 1, 0x1AE), (0x289, 1, 1, 0x244), (0x28A, 2, 1, 0x1B1), (0x28C, 1, 1, 0x245),
   (0x292, 1, 1, 0x1B7), (0x29D, 1, 1, 0xA7B2), (0x29E, 1, 1, 0xA7B0), (0x345, 1, 1, 0x399),
   (0x371, 2, 2, 0x370), (0x377, 1, 1, 0x376), (0x37B, 3, 1, 0x3FD), (0x3AC, 1, 1, 0x386),
   (0x3AD, 3, 1, 0x388), (0x3B1, 17, 1, 0x391), (0x3C2, 1, 1, 0x3A3), (0x3C3, 9, 1, 0x3A3),
   (0x3CC, 1, 1, 0x38C), (0x3CD, 2, 1, 0x38E), (0x3D0, 1, 1, 0x392), (0x3D1, 1, 1, 0x398),
   (0x3D5, 1, 1, 0x3A6), (0x3D6, 1, 1, 0x3A0), (0x3D7, 1, 1, 0x3CF), (0x3D9, 12, 2, 0x3D8),
   (0x3F0, 1, 1, 0x39A), (0x3F1, 1, 1, 0x3A1), (0x3F2, 1, 1, 0x3F9), (0x3F3, 1, 1, 0x37F),
   (0x3F5, 1, 1, 0x395), (0x3F8, 1, 1, 0x3F7), (0x3FB, 1, 1, 0x3FA), (0x430, 32, 1, 0x410),
   (0x450, 16, 1, 0x400), (0x461, 17, 2, 0x460), (0x48B, 27, 2, 0x48A), (0x4C2, 7, 2, 0x4C1),
   (0x4CF, 1, 1, 0x4C0), (0x4D1, 48, 2, 0x4D0), (0x561, 38, 1, 0x531), (0x10D0, 43, 1, 0x1C90),
   (0x10FD, 3, 1, 0x1CBD), (0x13F8, 6, 1, 0x13F0), (0x1C80, 1, 1, 0x412), (0x1C81, 1, 1, 0x414),
   (0x1C82, 1, 1, 0x41E), (0x1C83, 2, 1, 0x421), (0x1C85, 1, 1, 0x422), (0x1C86, 1, 1, 0x42A),
   (0x1C87, 1, 1, 0x462), (0x1C88, 1, 1, 0xA64A), (0x1C8A, 1, 1, 0x1C89), (0x1D79, 1, 1, 0xA77D),
   (0x1D7D, 1, 1, 0x2C63), (0x1D8E, 1, 1, 0xA7C6), (0x1E01, 75, 2, 0x1E00), (0x1E9B, 1, 1, 0x1E60),
   (0x1EA1, 48, 2, 0x1EA0), (0x1F00, 8, 1, 0x1F08), (0x1F10, 6, 1, 0x1F18), (0x1F20, 8, 1, 0x1F28),
   (0x1F30, 8, 1, 0x1F38), (0x1F40, 6, 1, 0x1F48), (0x1F51, 4, 2, 0x1F59), (0x1F60, 8, 1, 0x1F68),
   (0x1F70, 2, 1, 0x1FBA), (0x1F72, 4, 1, 0x1FC8), (0x1F76, 2, 1, 0x1FDA), (0x1F78, 2, 1, 0x1FF8),
   (0x1F7A, 2, 1, 0x1FEA), (0x1F7C, 2, 1, 0x1FFA), (0x1FB0, 2, 1, 0x1FB8), (0x1FBE, 1, 1, 0x399),
   (0x1FD0, 2, 1, 0x1FD8), (0x1FE0, 2, 1, 0x1FE8), (0x1FE5, 1, 1, 0x1FEC), (0x214E, 1, 1, 0x2132),
   (0x2170, 16, 1, 0x2160), (0x2184, 1, 1, 0x2183), (0x24D0, 26, 1, 0x24B6),
   (0x2C30, 48, 1, 0x2C00), (0x2C61, 1, 1, 0x2C60), (0x2C65, 1, 1, 0x23A), (0x2C66, 1, 1, 0x23E),
   (0x2C68, 3, 2, 0x2C67), (0x2C73, 1, 1, 0x2C72), (0x2C76, 1, 1, 0x2C75), (0x2C81, 50, 2, 0x2C80),
   (0x2CEC, 2, 2, 0x2CEB), (0x2CF3, 1, 1, 0x2CF2), (0x2D00, 38, 1, 0x10A0), (0x2D27, 1, 1, 0x10C7),
   (0x2D2D, 1, 1, 0x10CD), (0xA641, 23, 2, 0xA640), (0xA681, 14, 2, 0xA680),
   (0xA723, 7, 2, 0xA722), (0xA733, 31, 2, 0xA732), (0xA77A, 2, 2, 0xA779), (0xA77F, 5, 2, 0xA77E),
   (0xA78C, 1, 1, 0xA78B), (0xA791, 2, 2, 0xA790), (0xA794, 1, 1, 0xA7C4), (0xA797, 10, 2, 0xA796),
   (0xA7B5, 8, 2, 0xA7B4), (0xA7C8, 2, 2, 0xA7C7), (0xA7CD, 1, 1, 0xA7CC), (0xA7D1, 1, 1, 0xA7D0),
   (0xA7D7, 3, 2, 0xA7D6), (0xA7F6, 1, 1, 0xA7F5), (0xAB53, 1, 1, 0xA7B3), (0xAB70, 80, 1, 0x13A0),
   (0xFF41, 26, 1, 0xFF21), (0x10428, 40, 1, 0x10400), (0x104D8, 36, 1, 0x104B0),
   (0x10597, 11, 1, 0x10570), (0x105A3, 15, 1, 0x1057C), (0x105B3, 7, 1, 0x1058C),
   (0x105BB, 2, 1, 0x10594), (0x10CC0, 51, 1, 0x10C80), (0x10D70, 22, 1, 0x10D50),
   (0x118C0, 32, 1, 0x118A0), (0x16E60, 32, 1, 0x16E40), (0x1E922, 34, 1, 0x1E900)]

/-- Letters whose capital is several characters, in runs: the first letter, how many follow one another,
and the capital of the first. From one letter to the next only its first character moves on. -/
def expandedRuns : List (Nat × Nat × List Nat) :=
  [(0xDF, 1, [0x53, 0x53]), (0x149, 1, [0x2BC, 0x4E]), (0x1F0, 1, [0x4A, 0x30C]),
   (0x390, 1, [0x399, 0x308, 0x301]), (0x3B0, 1, [0x3A5, 0x308, 0x301]),
   (0x587, 1, [0x535, 0x552]), (0x1E96, 1, [0x48, 0x331]), (0x1E97, 1, [0x54, 0x308]),
   (0x1E98, 1, [0x57, 0x30A]), (0x1E99, 1, [0x59, 0x30A]), (0x1E9A, 1, [0x41, 0x2BE]),
   (0x1F50, 1, [0x3A5, 0x313]), (0x1F52, 1, [0x3A5, 0x313, 0x300]),
   (0x1F54, 1, [0x3A5, 0x313, 0x301]), (0x1F56, 1, [0x3A5, 0x313, 0x342]),
   (0x1F80, 8, [0x1F08, 0x399]), (0x1F88, 8, [0x1F08, 0x399]), (0x1F90, 8, [0x1F28, 0x399]),
   (0x1F98, 8, [0x1F28, 0x399]), (0x1FA0, 8, [0x1F68, 0x399]), (0x1FA8, 8, [0x1F68, 0x399]),
   (0x1FB2, 1, [0x1FBA, 0x399]), (0x1FB3, 1, [0x391, 0x399]), (0x1FB4, 1, [0x386, 0x399]),
   (0x1FB6, 1, [0x391, 0x342]), (0x1FB7, 1, [0x391, 0x342, 0x399]), (0x1FBC, 1, [0x391, 0x399]),
   (0x1FC2, 1, [0x1FCA, 0x399]), (0x1FC3, 1, [0x397, 0x399]), (0x1FC4, 1, [0x389, 0x399]),
   (0x1FC6, 1, [0x397, 0x342]), (0x1FC7, 1, [0x397, 0x342, 0x399]), (0x1FCC, 1, [0x397, 0x399]),
   (0x1FD2, 1, [0x399, 0x308, 0x300]), (0x1FD3, 1, [0x399, 0x308, 0x301]),
   (0x1FD6, 1, [0x399, 0x342]), (0x1FD7, 1, [0x399, 0x308, 0x342]),
   (0x1FE2, 1, [0x3A5, 0x308, 0x300]), (0x1FE3, 1, [0x3A5, 0x308, 0x301]),
   (0x1FE4, 1, [0x3A1, 0x313]), (0x1FE6, 1, [0x3A5, 0x342]), (0x1FE7, 1, [0x3A5, 0x308, 0x342]),
   (0x1FF2, 1, [0x1FFA, 0x399]), (0x1FF3, 1, [0x3A9, 0x399]), (0x1FF4, 1, [0x38F, 0x399]),
   (0x1FF6, 1, [0x3A9, 0x342]), (0x1FF7, 1, [0x3A9, 0x342, 0x399]), (0x1FFC, 1, [0x3A9, 0x399]),
   (0xFB00, 1, [0x46, 0x46]), (0xFB01, 1, [0x46, 0x49]), (0xFB02, 1, [0x46, 0x4C]),
   (0xFB03, 1, [0x46, 0x46, 0x49]), (0xFB04, 1, [0x46, 0x46, 0x4C]), (0xFB05, 1, [0x53, 0x54]),
   (0xFB06, 1, [0x53, 0x54]), (0xFB13, 1, [0x544, 0x546]), (0xFB14, 1, [0x544, 0x535]),
   (0xFB15, 1, [0x544, 0x53B]), (0xFB16, 1, [0x54E, 0x546]), (0xFB17, 1, [0x544, 0x53D])]

def singleCapital? (n : Nat) : Option Nat :=
  capitalRuns.findSome? fun (first, count, step, capital) =>
    if first ≤ n && n < first + count * step && (n - first) % step = 0 then some (capital + (n - first))
    else none

def expandedCapital? (n : Nat) : Option (List Nat) :=
  expandedRuns.findSome? fun (first, count, capital) =>
    match capital with
    | lead :: rest => if first ≤ n && n < first + count then some ((lead + (n - first)) :: rest) else none
    | [] => none

def upperChar (c : Char) : List Char :=
  if c.toNat < 0x80 then [c.toUpper]
  else
    match singleCapital? c.toNat, expandedCapital? c.toNat with
    | some capital, _ => [Char.ofNat capital]
    | none, some capitals => capitals.map Char.ofNat
    | none, none => [c]

def upper (s : String) : String := String.ofList (s.toList.flatMap upperChar)

end SemanticLayer.Text
