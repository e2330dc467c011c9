/-!
# Characters of recent versions

The code points that the Unicode character database assigns since version 15.0. Where characters of
these versions are not known yet, they pass for unassigned.
-/

namespace ParserGenerator.GeneralCategory

/-- The first and the last code point of each row. -/
def recentSpans : List (Nat × Nat) :=
  [(0x558, 0x558), (0x58b, 0x58c), (0x88f, 0x88f), (0x897, 0x897), (0xc5c, 0xc5c), (0xcdc, 0xcdc),
    (0xcf3, 0xcf3), (0xece, 0xece), (0x1acf, 0x1add), (0x1ae0, 0x1aeb), (0x1b4e, 0x1b4f),
    (0x1b7f, 0x1b7f), (0x1c89, 0x1c8a), (0x208f, 0x208f), (0x209d, 0x209f), (0x20c1, 0x20c3),
    (0x2427, 0x2429), (0x2b96, 0x2b96), (0x2e60, 0x2e63), (0x2ffc, 0x2fff), (0x31e4, 0x31e5),
    (0x31ef, 0x31ef), (0xa7cb, 0xa7cf), (0xa7d2, 0xa7d2), (0xa7d4, 0xa7d4), (0xa7da, 0xa7e2),
    (0xa7f1, 0xa7f1), (0xab6c, 0xab6c), (0xfbc3, 0xfbd2), (0xfd90, 0xfd91), (0xfdc8, 0xfdce),
    (0x105c0, 0x105f3), (0x107bb, 0x107bb), (0x10940, 0x10959), (0x10d40, 0x10d65),
    (0x10d69, 0x10d85), (0x10d8e, 0x10d8f), (0x10ec2, 0x10ec7), (0x10ed0, 0x10eee),
    (0x10efa, 0x10eff), (0x1123f, 0x11241), (0x11380, 0x11389), (0x1138b, 0x1138b),
    (0x1138e, 0x1138e), (0x11390, 0x113b5), (0x113b7, 0x113c0), (0x113c2, 0x113c2),
    (0x113c5, 0x113c5), (0x113c7, 0x113ca), (0x113cc, 0x113d5), (0x113d7, 0x113d8),
    (0x113e1, 0x113e2), (0x116d0, 0x116e3), (0x11b00, 0x11b0a), (0x11b60, 0x11b67),
    (0x11bc0, 0x11be1), (0x11bf0, 0x11bf9), (0x11db0, 0x11ddb), (0x11de0, 0x11de9),
    (0x11f00, 0x11f10), (0x11f12, 0x11f3a), (0x11f3e, 0x11f5a), (0x1246f, 0x1246f),
    (0x12475, 0x1247f), (0x12550, 0x12686), (0x1342f, 0x1342f), (0x13439, 0x13455),
    (0x13460, 0x143fa), (0x16100, 0x16139), (0x16d40, 0x16d79), (0x16d80, 0x16d9d),
    (0x16da0, 0x16da9), (0x16ea0, 0x16eb8), (0x16ebb, 0x16ed3), (0x16ff2, 0x16ff6),
    (0x187f8, 0x187ff), (0x18cd6, 0x18cd6), (0x18cff, 0x18cff), (0x18d09, 0x18d1e),
    (0x18d80, 0x18df2), (0x18e00, 0x19191), (0x191a0, 0x191d2), (0x1b132, 0x1b132),
    (0x1b155, 0x1b155), (0x1b168, 0x1b168), (0x1cc00, 0x1ccfc), (0x1cd00, 0x1ceb3),
    (0x1ceba, 0x1ced0), (0x1cee0, 0x1cef0), (0x1d2c0, 0x1d2d3), (0x1d6a6, 0x1d6a6),
    (0x1df25, 0x1df2a), (0x1df40, 0x1df96), (0x1dfcd, 0x1dfff), (0x1e030, 0x1e06d),
    (0x1e08f, 0x1e08f), (0x1e4d0, 0x1e4f9), (0x1e5d0, 0x1e5fa), (0x1e5ff, 0x1e5ff),
    (0x1e6c0, 0x1e6de), (0x1e6e0, 0x1e6f5), (0x1e6fe, 0x1e6ff), (0x1f6d8, 0x1f6d9),
    (0x1f6dc, 0x1f6dc), (0x1f774, 0x1f77f), (0x1f7d9, 0x1f7d9), (0x1f8b2, 0x1f8bb),
    (0x1f8c0, 0x1f8c1), (0x1f8d0, 0x1f8d8), (0x1fa54, 0x1fa57), (0x1fa75, 0x1fa77),
    (0x1fa87, 0x1fa8f), (0x1faad, 0x1faaf), (0x1fabb, 0x1fabf), (0x1fac6, 0x1fac6),
    (0x1fac8, 0x1fac8), (0x1facc, 0x1facf), (0x1fada, 0x1fadd), (0x1fadf, 0x1fadf),
    (0x1fae8, 0x1faeb), (0x1faef, 0x1faef), (0x1faf7, 0x1fafa), (0x1fbcb, 0x1fbef),
    (0x1fbfa, 0x1fbfa), (0x2b739, 0x2b73f), (0x2b81e, 0x2b81e), (0x2cea2, 0x2cead),
    (0x2ebf0, 0x2ee5d), (0x31350, 0x33479), (0x3d000, 0x3fc3f)]

def isRecent (n : Nat) : Bool := recentSpans.any fun s => s.1 ≤ n && n ≤ s.2

end ParserGenerator.GeneralCategory
