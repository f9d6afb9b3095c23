import BootPerl.Lemmas.Build

/-!
# What the exit status of the builder says

`main` exits with success whenever it is given three files. So a success stands for a complete image exactly when the files are
accepted and the image fits a floppy: a rejected file leaves nothing written, and a kernel beyond the last cylinder gets addresses
of tracks that do not exist.
-/

namespace BootPerl

section
variable {bootsect second kernel : List UInt8}

end

end BootPerl
