/-! The byte tables of the CRC base functions. -/
namespace Isal.Checksum

def crc16tab : List Nat :=
  [0x0000, 0x8bb7, 0x9cd9, 0x176e, 0xb205, 0x39b2, 0x2edc, 0xa56b, 0xefbd, 0x640a, 0x7364, 0xf8d3,
   0x5db8, 0xd60f, 0xc161, 0x4ad6, 0x54cd, 0xdf7a, 0xc814, 0x43a3, 0xe6c8, 0x6d7f, 0x7a11, 0xf1a6,
   0xbb70, 0x30c7, 0x27a9, 0xac1e, 0x0975, 0x82c2, 0x95ac, 0x1e1b, 0xa99a, 0x222d, 0x3543, 0xbef4,
   0x1b9f, 0x9028, 0x8746, 0x0cf1, 0x4627, 0xcd90, 0xdafe, 0x5149, 0xf422, 0x7f95, 0x68fb, 0xe34c,
   0xfd57, 0x76e0, 0x618e, 0xea39, 0x4f52, 0xc4e5, 0xd38b, 0x583c, 0x12ea, 0x995d, 0x8e33, 0x0584,
   0xa0ef, 0x2b58, 0x3c36, 0xb781, 0xd883, 0x5334, 0x445a, 0xcfed, 0x6a86, 0xe131, 0xf65f, 0x7de8,
   0x373e, 0xbc89, 0xabe7, 0x2050, 0x853b, 0x0e8c, 0x19e2, 0x9255, 0x8c4e, 0x07f9, 0x1097, 0x9b20,
   0x3e4b, 0xb5fc, 0xa292, 0x2925, 0x63f3, 0xe844, 0xff2a, 0x749d, 0xd1f6, 0x5a41, 0x4d2f, 0xc698,
   0x7119, 0xfaae, 0xedc0, 0x6677, 0xc31c, 0x48ab, 0x5fc5, 0xd472, 0x9ea4, 0x1513, 0x027d, 0x89ca,
   0x2ca1, 0xa716, 0xb078, 0x3bcf, 0x25d4, 0xae63, 0xb90d, 0x32ba, 0x97d1, 0x1c66, 0x0b08, 0x80bf,
   0xca69, 0x41de, 0x56b0, 0xdd07, 0x786c, 0xf3db, 0xe4b5, 0x6f02, 0x3ab1, 0xb106, 0xa668, 0x2ddf,
   0x88b4, 0x0303, 0x146d, 0x9fda, 0xd50c, 0x5ebb, 0x49d5, 0xc262, 0x6709, 0xecbe, 0xfbd0, 0x7067,
   0x6e7c, 0xe5cb, 0xf2a5, 0x7912, 0xdc79, 0x57ce, 0x40a0, 0xcb17, 0x81c1, 0x0a76, 0x1d18, 0x96af,
   0x33c4, 0xb873, 0xaf1d, 0x24aa, 0x932b, 0x189c, 0x0ff2, 0x8445, 0x212e, 0xaa99, 0xbdf7, 0x3640,
   0x7c96, 0xf721, 0xe04f, 0x6bf8, 0xce93, 0x4524, 0x524a, 0xd9fd, 0xc7e6, 0x4c51, 0x5b3f, 0xd088,
   0x75e3, 0xfe54, 0xe93a, 0x628d, 0x285b, 0xa3ec, 0xb482, 0x3f35, 0x9a5e, 0x11e9, 0x0687, 0x8d30,
   0xe232, 0x6985, 0x7eeb, 0xf55c, 0x5037, 0xdb80, 0xccee, 0x4759, 0x0d8f, 0x8638, 0x9156, 0x1ae1,
   0xbf8a, 0x343d, 0x2353, 0xa8e4, 0xb6ff, 0x3d48, 0x2a26, 0xa191, 0x04fa, 0x8f4d, 0x9823, 0x1394,
   0x5942, 0xd2f5, 0xc59b, 0x4e2c, 0xeb47, 0x60f0, 0x779e, 0xfc29, 0x4ba8, 0xc01f, 0xd771, 0x5cc6,
   0xf9ad, 0x721a, 0x6574, 0xeec3, 0xa415, 0x2fa2, 0x38cc, 0xb37b, 0x1610, 0x9da7, 0x8ac9, 0x017e,
   0x1f65, 0x94d2, 0x83bc, 0x080b, 0xad60, 0x26d7, 0x31b9, 0xba0e, 0xf0d8, 0x7b6f, 0x6c01, 0xe7b6,
   0x42dd, 0xc96a, 0xde04, 0x55b3]

def crc32TableIscsiRefl : List Nat :=
  [0x00000000, 0xf26b8303, 0xe13b70f7, 0x1350f3f4, 0xc79a971f, 0x35f1141c, 0x26a1e7e8, 0xd4ca64eb,
   0x8ad958cf, 0x78b2dbcc, 0x6be22838, 0x9989ab3b, 0x4d43cfd0, 0xbf284cd3, 0xac78bf27, 0x5e133c24,
   0x105ec76f, 0xe235446c, 0xf165b798, 0x030e349b, 0xd7c45070, 0x25afd373, 0x36ff2087, 0xc494a384,
   0x9a879fa0, 0x68ec1ca3, 0x7bbcef57, 0x89d76c54, 0x5d1d08bf, 0xaf768bbc, 0xbc267848, 0x4e4dfb4b,
   0x20bd8ede, 0xd2d60ddd, 0xc186fe29, 0x33ed7d2a, 0xe72719c1, 0x154c9ac2, 0x061c6936, 0xf477ea35,
   0xaa64d611, 0x580f5512, 0x4b5fa6e6, 0xb93425e5, 0x6dfe410e, 0x9f95c20d, 0x8cc531f9, 0x7eaeb2fa,
   0x30e349b1, 0xc288cab2, 0xd1d83946, 0x23b3ba45, 0xf779deae, 0x05125dad, 0x1642ae59, 0xe4292d5a,
   0xba3a117e, 0x4851927d, 0x5b016189, 0xa96ae28a, 0x7da08661, 0x8fcb0562, 0x9c9bf696, 0x6ef07595,
   0x417b1dbc, 0xb3109ebf, 0xa0406d4b, 0x522bee48, 0x86e18aa3, 0x748a09a0, 0x67dafa54, 0x95b17957,
   0xcba24573, 0x39c9c670, 0x2a993584, 0xd8f2b687, 0x0c38d26c, 0xfe53516f, 0xed03a29b, 0x1f682198,
   0x5125dad3, 0xa34e59d0, 0xb01eaa24, 0x42752927, 0x96bf4dcc, 0x64d4cecf, 0x77843d3b, 0x85efbe38,
   0xdbfc821c, 0x2997011f, 0x3ac7f2eb, 0xc8ac71e8, 0x1c661503, 0xee0d9600, 0xfd5d65f4, 0x0f36e6f7,
   0x61c69362, 0x93ad1061, 0x80fde395, 0x72966096, 0xa65c047d, 0x5437877e, 0x4767748a, 0xb50cf789,
   0xeb1fcbad, 0x197448ae, 0x0a24bb5a, 0xf84f3859, 0x2c855cb2, 0xdeeedfb1, 0xcdbe2c45, 0x3fd5af46,
   0x7198540d, 0x83f3d70e, 0x90a324fa, 0x62c8a7f9, 0xb602c312, 0x44694011, 0x5739b3e5, 0xa55230e6,
   0xfb410cc2, 0x092a8fc1, 0x1a7a7c35, 0xe811ff36, 0x3cdb9bdd, 0xceb018de, 0xdde0eb2a, 0x2f8b6829,
   0x82f63b78, 0x709db87b, 0x63cd4b8f, 0x91a6c88c, 0x456cac67, 0xb7072f64, 0xa457dc90, 0x563c5f93,
   0x082f63b7, 0xfa44e0b4, 0xe9141340, 0x1b7f9043, 0xcfb5f4a8, 0x3dde77ab, 0x2e8e845f, 0xdce5075c,
   0x92a8fc17, 0x60c37f14, 0x73938ce0, 0x81f80fe3, 0x55326b08, 0xa759e80b, 0xb4091bff, 0x466298fc,
   0x1871a4d8, 0xea1a27db, 0xf94ad42f, 0x0b21572c, 0xdfeb33c7, 0x2d80b0c4, 0x3ed04330, 0xccbbc033,
   0xa24bb5a6, 0x502036a5, 0x4370c551, 0xb11b4652, 0x65d122b9, 0x97baa1ba, 0x84ea524e, 0x7681d14d,
   0x2892ed69, 0xdaf96e6a, 0xc9a99d9e, 0x3bc21e9d, 0xef087a76, 0x1d63f975, 0x0e330a81, 0xfc588982,
   0xb21572c9, 0x407ef1ca, 0x532e023e, 0xa145813d, 0x758fe5d6, 0x87e466d5, 0x94b49521, 0x66df1622,
   0x38cc2a06, 0xcaa7a905, 0xd9f75af1, 0x2b9cd9f2, 0xff56bd19, 0x0d3d3e1a, 0x1e6dcdee, 0xec064eed,
   0xc38d26c4, 0x31e6a5c7, 0x22b65633, 0xd0ddd530, 0x0417b1db, 0xf67c32d8, 0xe52cc12c, 0x1747422f,
   0x49547e0b, 0xbb3ffd08, 0xa86f0efc, 0x5a048dff, 0x8ecee914, 0x7ca56a17, 0x6ff599e3, 0x9d9e1ae0,
   0xd3d3e1ab, 0x21b862a8, 0x32e8915c, 0xc083125f, 0x144976b4, 0xe622f5b7, 0xf5720643, 0x07198540,
   0x590ab964, 0xab613a67, 0xb831c993, 0x4a5a4a90, 0x9e902e7b, 0x6cfbad78, 0x7fab5e8c, 0x8dc0dd8f,
   0xe330a81a, 0x115b2b19, 0x020bd8ed, 0xf0605bee, 0x24aa3f05, 0xd6c1bc06, 0xc5914ff2, 0x37faccf1,
   0x69e9f0d5, 0x9b8273d6, 0x88d28022, 0x7ab90321, 0xae7367ca, 0x5c18e4c9, 0x4f48173d, 0xbd23943e,
   0xf36e6f75, 0x0105ec76, 0x12551f82, 0xe03e9c81, 0x34f4f86a, 0xc69f7b69, 0xd5cf889d, 0x27a40b9e,
   0x79b737ba, 0x8bdcb4b9, 0x988c474d, 0x6ae7c44e, 0xbe2da0a5, 0x4c4623a6, 0x5f16d052, 0xad7d5351]

def crc32TableIeeeNorm : List Nat :=
  [0x00000000, 0x04c11db7, 0x09823b6e, 0x0d4326d9, 0x130476dc, 0x17c56b6b, 0x1a864db2, 0x1e475005,
   0x2608edb8, 0x22c9f00f, 0x2f8ad6d6, 0x2b4bcb61, 0x350c9b64, 0x31cd86d3, 0x3c8ea00a, 0x384fbdbd,
   0x4c11db70, 0x48d0c6c7, 0x4593e01e, 0x4152fda9, 0x5f15adac, 0x5bd4b01b, 0x569796c2, 0x52568b75,
   0x6a1936c8, 0x6ed82b7f, 0x639b0da6, 0x675a1011, 0x791d4014, 0x7ddc5da3, 0x709f7b7a, 0x745e66cd,
   0x9823b6e0, 0x9ce2ab57, 0x91a18d8e, 0x95609039, 0x8b27c03c, 0x8fe6dd8b, 0x82a5fb52, 0x8664e6e5,
   0xbe2b5b58, 0xbaea46ef, 0xb7a96036, 0xb3687d81, 0xad2f2d84, 0xa9ee3033, 0xa4ad16ea, 0xa06c0b5d,
   0xd4326d90, 0xd0f37027, 0xddb056fe, 0xd9714b49, 0xc7361b4c, 0xc3f706fb, 0xceb42022, 0xca753d95,
   0xf23a8028, 0xf6fb9d9f, 0xfbb8bb46, 0xff79a6f1, 0xe13ef6f4, 0xe5ffeb43, 0xe8bccd9a, 0xec7dd02d,
   0x34867077, 0x30476dc0, 0x3d044b19, 0x39c556ae, 0x278206ab, 0x23431b1c, 0x2e003dc5, 0x2ac12072,
   0x128e9dcf, 0x164f8078, 0x1b0ca6a1, 0x1fcdbb16, 0x018aeb13, 0x054bf6a4, 0x0808d07d, 0x0cc9cdca,
   0x7897ab07, 0x7c56b6b0, 0x71159069, 0x75d48dde, 0x6b93dddb, 0x6f52c06c, 0x6211e6b5, 0x66d0fb02,
   0x5e9f46bf, 0x5a5e5b08, 0x571d7dd1, 0x53dc6066, 0x4d9b3063, 0x495a2dd4, 0x44190b0d, 0x40d816ba,
   0xaca5c697, 0xa864db20, 0xa527fdf9, 0xa1e6e04e, 0xbfa1b04b, 0xbb60adfc, 0xb6238b25, 0xb2e29692,
   0x8aad2b2f, 0x8e6c3698, 0x832f1041, 0x87ee0df6, 0x99a95df3, 0x9d684044, 0x902b669d, 0x94ea7b2a,
   0xe0b41de7, 0xe4750050, 0xe9362689, 0xedf73b3e, 0xf3b06b3b, 0xf771768c, 0xfa325055, 0xfef34de2,
   0xc6bcf05f, 0xc27dede8, 0xcf3ecb31, 0xcbffd686, 0xd5b88683, 0xd1799b34, 0xdc3abded, 0xd8fba05a,
   0x690ce0ee, 0x6dcdfd59, 0x608edb80, 0x644fc637, 0x7a089632, 0x7ec98b85, 0x738aad5c, 0x774bb0eb,
   0x4f040d56, 0x4bc510e1, 0x46863638, 0x42472b8f, 0x5c007b8a, 0x58c1663d, 0x558240e4, 0x51435d53,
   0x251d3b9e, 0x21dc2629, 0x2c9f00f0, 0x285e1d47, 0x36194d42, 0x32d850f5, 0x3f9b762c, 0x3b5a6b9b,
   0x0315d626, 0x07d4cb91, 0x0a97ed48, 0x0e56f0ff, 0x1011a0fa, 0x14d0bd4d, 0x19939b94, 0x1d528623,
   0xf12f560e, 0xf5ee4bb9, 0xf8ad6d60, 0xfc6c70d7, 0xe22b20d2, 0xe6ea3d65, 0xeba91bbc, 0xef68060b,
   0xd727bbb6, 0xd3e6a601, 0xdea580d8, 0xda649d6f, 0xc423cd6a, 0xc0e2d0dd, 0xcda1f604, 0xc960ebb3,
   0xbd3e8d7e, 0xb9ff90c9, 0xb4bcb610, 0xb07daba7, 0xae3afba2, 0xaafbe615, 0xa7b8c0cc, 0xa379dd7b,
   0x9b3660c6, 0x9ff77d71, 0x92b45ba8, 0x9675461f, 0x8832161a, 0x8cf30bad, 0x81b02d74, 0x857130c3,
   0x5d8a9099, 0x594b8d2e, 0x5408abf7, 0x50c9b640, 0x4e8ee645, 0x4a4ffbf2, 0x470cdd2b, 0x43cdc09c,
   0x7b827d21, 0x7f436096, 0x7200464f, 0x76c15bf8, 0x68860bfd, 0x6c47164a, 0x61043093, 0x65c52d24,
   0x119b4be9, 0x155a565e, 0x18197087, 0x1cd86d30, 0x029f3d35, 0x065e2082, 0x0b1d065b, 0x0fdc1bec,
   0x3793a651, 0x3352bbe6, 0x3e119d3f, 0x3ad08088, 0x2497d08d, 0x2056cd3a, 0x2d15ebe3, 0x29d4f654,
   0xc5a92679, 0xc1683bce, 0xcc2b1d17, 0xc8ea00a0, 0xd6ad50a5, 0xd26c4d12, 0xdf2f6bcb, 0xdbee767c,
   0xe3a1cbc1, 0xe760d676, 0xea23f0af, 0xeee2ed18, 0xf0a5bd1d, 0xf464a0aa, 0xf9278673, 0xfde69bc4,
   0x89b8fd09, 0x8d79e0be, 0x803ac667, 0x84fbdbd0, 0x9abc8bd5, 0x9e7d9662, 0x933eb0bb, 0x97ffad0c,
   0xafb010b1, 0xab710d06, 0xa6322bdf, 0xa2f33668, 0xbcb4666d, 0xb8757bda, 0xb5365d03, 0xb1f740b4]

def crc64EcmaReflTable : List Nat :=
  [0x0000000000000000, 0xb32e4cbe03a75f6f, 0xf4843657a840a05b, 0x47aa7ae9abe7ff34,
   0x7bd0c384ff8f5e33, 0xc8fe8f3afc28015c, 0x8f54f5d357cffe68, 0x3c7ab96d5468a107,
   0xf7a18709ff1ebc66, 0x448fcbb7fcb9e309, 0x0325b15e575e1c3d, 0xb00bfde054f94352,
   0x8c71448d0091e255, 0x3f5f08330336bd3a, 0x78f572daa8d1420e, 0xcbdb3e64ab761d61,
   0x7d9ba13851336649, 0xceb5ed8652943926, 0x891f976ff973c612, 0x3a31dbd1fad4997d,
   0x064b62bcaebc387a, 0xb5652e02ad1b6715, 0xf2cf54eb06fc9821, 0x41e11855055bc74e,
   0x8a3a2631ae2dda2f, 0x39146a8fad8a8540, 0x7ebe1066066d7a74, 0xcd905cd805ca251b,
   0xf1eae5b551a2841c, 0x42c4a90b5205db73, 0x056ed3e2f9e22447, 0xb6409f5cfa457b28,
   0xfb374270a266cc92, 0x48190ecea1c193fd, 0x0fb374270a266cc9, 0xbc9d3899098133a6,
   0x80e781f45de992a1, 0x33c9cd4a5e4ecdce, 0x7463b7a3f5a932fa, 0xc74dfb1df60e6d95,
   0x0c96c5795d7870f4, 0xbfb889c75edf2f9b, 0xf812f32ef538d0af, 0x4b3cbf90f69f8fc0,
   0x774606fda2f72ec7, 0xc4684a43a15071a8, 0x83c230aa0ab78e9c, 0x30ec7c140910d1f3,
   0x86ace348f355aadb, 0x3582aff6f0f2f5b4, 0x7228d51f5b150a80, 0xc10699a158b255ef,
   0xfd7c20cc0cdaf4e8, 0x4e526c720f7dab87, 0x09f8169ba49a54b3, 0xbad65a25a73d0bdc,
   0x710d64410c4b16bd, 0xc22328ff0fec49d2, 0x85895216a40bb6e6, 0x36a71ea8a7ace989,
   0x0adda7c5f3c4488e, 0xb9f3eb7bf06317e1, 0xfe5991925b84e8d5, 0x4d77dd2c5823b7ba,
   0x64b62bcaebc387a1, 0xd7986774e864d8ce, 0x90321d9d438327fa, 0x231c512340247895,
   0x1f66e84e144cd992, 0xac48a4f017eb86fd, 0xebe2de19bc0c79c9, 0x58cc92a7bfab26a6,
   0x9317acc314dd3bc7, 0x2039e07d177a64a8, 0x67939a94bc9d9b9c, 0xd4bdd62abf3ac4f3,
   0xe8c76f47eb5265f4, 0x5be923f9e8f53a9b, 0x1c4359104312c5af, 0xaf6d15ae40b59ac0,
   0x192d8af2baf0e1e8, 0xaa03c64cb957be87, 0xeda9bca512b041b3, 0x5e87f01b11171edc,
   0x62fd4976457fbfdb, 0xd1d305c846d8e0b4, 0x96797f21ed3f1f80, 0x2557339fee9840ef,
   0xee8c0dfb45ee5d8e, 0x5da24145464902e1, 0x1a083bacedaefdd5, 0xa9267712ee09a2ba,
   0x955cce7fba6103bd, 0x267282c1b9c65cd2, 0x61d8f8281221a3e6, 0xd2f6b4961186fc89,
   0x9f8169ba49a54b33, 0x2caf25044a02145c, 0x6b055fede1e5eb68, 0xd82b1353e242b407,
   0xe451aa3eb62a1500, 0x577fe680b58d4a6f, 0x10d59c691e6ab55b, 0xa3fbd0d71dcdea34,
   0x6820eeb3b6bbf755, 0xdb0ea20db51ca83a, 0x9ca4d8e41efb570e, 0x2f8a945a1d5c0861,
   0x13f02d374934a966, 0xa0de61894a93f609, 0xe7741b60e174093d, 0x545a57dee2d35652,
   0xe21ac88218962d7a, 0x5134843c1b317215, 0x169efed5b0d68d21, 0xa5b0b26bb371d24e,
   0x99ca0b06e7197349, 0x2ae447b8e4be2c26, 0x6d4e3d514f59d312, 0xde6071ef4cfe8c7d,
   0x15bb4f8be788911c, 0xa6950335e42fce73, 0xe13f79dc4fc83147, 0x521135624c6f6e28,
   0x6e6b8c0f1807cf2f, 0xdd45c0b11ba09040, 0x9aefba58b0476f74, 0x29c1f6e6b3e0301b,
   0xc96c5795d7870f42, 0x7a421b2bd420502d, 0x3de861c27fc7af19, 0x8ec62d7c7c60f076,
   0xb2bc941128085171, 0x0192d8af2baf0e1e, 0x4638a2468048f12a, 0xf516eef883efae45,
   0x3ecdd09c2899b324, 0x8de39c222b3eec4b, 0xca49e6cb80d9137f, 0x7967aa75837e4c10,
   0x451d1318d716ed17, 0xf6335fa6d4b1b278, 0xb199254f7f564d4c, 0x02b769f17cf11223,
   0xb4f7f6ad86b4690b, 0x07d9ba1385133664, 0x4073c0fa2ef4c950, 0xf35d8c442d53963f,
   0xcf273529793b3738, 0x7c0979977a9c6857, 0x3ba3037ed17b9763, 0x888d4fc0d2dcc80c,
   0x435671a479aad56d, 0xf0783d1a7a0d8a02, 0xb7d247f3d1ea7536, 0x04fc0b4dd24d2a59,
   0x3886b22086258b5e, 0x8ba8fe9e8582d431, 0xcc0284772e652b05, 0x7f2cc8c92dc2746a,
   0x325b15e575e1c3d0, 0x8175595b76469cbf, 0xc6df23b2dda1638b, 0x75f16f0cde063ce4,
   0x498bd6618a6e9de3, 0xfaa59adf89c9c28c, 0xbd0fe036222e3db8, 0x0e21ac88218962d7,
   0xc5fa92ec8aff7fb6, 0x76d4de52895820d9, 0x317ea4bb22bfdfed, 0x8250e80521188082,
   0xbe2a516875702185, 0x0d041dd676d77eea, 0x4aae673fdd3081de, 0xf9802b81de97deb1,
   0x4fc0b4dd24d2a599, 0xfceef8632775faf6, 0xbb44828a8c9205c2, 0x086ace348f355aad,
   0x34107759db5dfbaa, 0x873e3be7d8faa4c5, 0xc094410e731d5bf1, 0x73ba0db070ba049e,
   0xb86133d4dbcc19ff, 0x0b4f7f6ad86b4690, 0x4ce50583738cb9a4, 0xffcb493d702be6cb,
   0xc3b1f050244347cc, 0x709fbcee27e418a3, 0x3735c6078c03e797, 0x841b8ab98fa4b8f8,
   0xadda7c5f3c4488e3, 0x1ef430e13fe3d78c, 0x595e4a08940428b8, 0xea7006b697a377d7,
   0xd60abfdbc3cbd6d0, 0x6524f365c06c89bf, 0x228e898c6b8b768b, 0x91a0c532682c29e4,
   0x5a7bfb56c35a3485, 0xe955b7e8c0fd6bea, 0xaeffcd016b1a94de, 0x1dd181bf68bdcbb1,
   0x21ab38d23cd56ab6, 0x9285746c3f7235d9, 0xd52f0e859495caed, 0x6601423b97329582,
   0xd041dd676d77eeaa, 0x636f91d96ed0b1c5, 0x24c5eb30c5374ef1, 0x97eba78ec690119e,
   0xab911ee392f8b099, 0x18bf525d915feff6, 0x5f1528b43ab810c2, 0xec3b640a391f4fad,
   0x27e05a6e926952cc, 0x94ce16d091ce0da3, 0xd3646c393a29f297, 0x604a2087398eadf8,
   0x5c3099ea6de60cff, 0xef1ed5546e415390, 0xa8b4afbdc5a6aca4, 0x1b9ae303c601f3cb,
   0x56ed3e2f9e224471, 0xe5c372919d851b1e, 0xa26908783662e42a, 0x114744c635c5bb45,
   0x2d3dfdab61ad1a42, 0x9e13b115620a452d, 0xd9b9cbfcc9edba19, 0x6a978742ca4ae576,
   0xa14cb926613cf817, 0x1262f598629ba778, 0x55c88f71c97c584c, 0xe6e6c3cfcadb0723,
   0xda9c7aa29eb3a624, 0x69b2361c9d14f94b, 0x2e184cf536f3067f, 0x9d36004b35545910,
   0x2b769f17cf112238, 0x9858d3a9ccb67d57, 0xdff2a94067518263, 0x6cdce5fe64f6dd0c,
   0x50a65c93309e7c0b, 0xe388102d33392364, 0xa4226ac498dedc50, 0x170c267a9b79833f,
   0xdcd7181e300f9e5e, 0x6ff954a033a8c131, 0x28532e49984f3e05, 0x9b7d62f79be8616a,
   0xa707db9acf80c06d, 0x14299724cc279f02, 0x5383edcd67c06036, 0xe0ada17364673f59]

def crc64EcmaNormTable : List Nat :=
  [0x0000000000000000, 0x42f0e1eba9ea3693, 0x85e1c3d753d46d26, 0xc711223cfa3e5bb5,
   0x493366450e42ecdf, 0x0bc387aea7a8da4c, 0xccd2a5925d9681f9, 0x8e224479f47cb76a,
   0x9266cc8a1c85d9be, 0xd0962d61b56fef2d, 0x17870f5d4f51b498, 0x5577eeb6e6bb820b,
   0xdb55aacf12c73561, 0x99a54b24bb2d03f2, 0x5eb4691841135847, 0x1c4488f3e8f96ed4,
   0x663d78ff90e185ef, 0x24cd9914390bb37c, 0xe3dcbb28c335e8c9, 0xa12c5ac36adfde5a,
   0x2f0e1eba9ea36930, 0x6dfeff5137495fa3, 0xaaefdd6dcd770416, 0xe81f3c86649d3285,
   0xf45bb4758c645c51, 0xb6ab559e258e6ac2, 0x71ba77a2dfb03177, 0x334a9649765a07e4,
   0xbd68d2308226b08e, 0xff9833db2bcc861d, 0x388911e7d1f2dda8, 0x7a79f00c7818eb3b,
   0xcc7af1ff21c30bde, 0x8e8a101488293d4d, 0x499b3228721766f8, 0x0b6bd3c3dbfd506b,
   0x854997ba2f81e701, 0xc7b97651866bd192, 0x00a8546d7c558a27, 0x4258b586d5bfbcb4,
   0x5e1c3d753d46d260, 0x1cecdc9e94ace4f3, 0xdbfdfea26e92bf46, 0x990d1f49c77889d5,
   0x172f5b3033043ebf, 0x55dfbadb9aee082c, 0x92ce98e760d05399, 0xd03e790cc93a650a,
   0xaa478900b1228e31, 0xe8b768eb18c8b8a2, 0x2fa64ad7e2f6e317, 0x6d56ab3c4b1cd584,
   0xe374ef45bf6062ee, 0xa1840eae168a547d, 0x66952c92ecb40fc8, 0x2465cd79455e395b,
   0x3821458aada7578f, 0x7ad1a461044d611c, 0xbdc0865dfe733aa9, 0xff3067b657990c3a,
   0x711223cfa3e5bb50, 0x33e2c2240a0f8dc3, 0xf4f3e018f031d676, 0xb60301f359dbe0e5,
   0xda050215ea6c212f, 0x98f5e3fe438617bc, 0x5fe4c1c2b9b84c09, 0x1d14202910527a9a,
   0x93366450e42ecdf0, 0xd1c685bb4dc4fb63, 0x16d7a787b7faa0d6, 0x5427466c1e109645,
   0x4863ce9ff6e9f891, 0x0a932f745f03ce02, 0xcd820d48a53d95b7, 0x8f72eca30cd7a324,
   0x0150a8daf8ab144e, 0x43a04931514122dd, 0x84b16b0dab7f7968, 0xc6418ae602954ffb,
   0xbc387aea7a8da4c0, 0xfec89b01d3679253, 0x39d9b93d2959c9e6, 0x7b2958d680b3ff75,
   0xf50b1caf74cf481f, 0xb7fbfd44dd257e8c, 0x70eadf78271b2539, 0x321a3e938ef113aa,
   0x2e5eb66066087d7e, 0x6cae578bcfe24bed, 0xabbf75b735dc1058, 0xe94f945c9c3626cb,
   0x676dd025684a91a1, 0x259d31cec1a0a732, 0xe28c13f23b9efc87, 0xa07cf2199274ca14,
   0x167ff3eacbaf2af1, 0x548f120162451c62, 0x939e303d987b47d7, 0xd16ed1d631917144,
   0x5f4c95afc5edc62e, 0x1dbc74446c07f0bd, 0xdaad56789639ab08, 0x985db7933fd39d9b,
   0x84193f60d72af34f, 0xc6e9de8b7ec0c5dc, 0x01f8fcb784fe9e69, 0x43081d5c2d14a8fa,
   0xcd2a5925d9681f90, 0x8fdab8ce70822903, 0x48cb9af28abc72b6, 0x0a3b7b1923564425,
   0x70428b155b4eaf1e, 0x32b26afef2a4998d, 0xf5a348c2089ac238, 0xb753a929a170f4ab,
   0x3971ed50550c43c1, 0x7b810cbbfce67552, 0xbc902e8706d82ee7, 0xfe60cf6caf321874,
   0xe224479f47cb76a0, 0xa0d4a674ee214033, 0x67c58448141f1b86, 0x253565a3bdf52d15,
   0xab1721da49899a7f, 0xe9e7c031e063acec, 0x2ef6e20d1a5df759, 0x6c0603e6b3b7c1ca,
   0xf6fae5c07d3274cd, 0xb40a042bd4d8425e, 0x731b26172ee619eb, 0x31ebc7fc870c2f78,
   0xbfc9838573709812, 0xfd39626eda9aae81, 0x3a28405220a4f534, 0x78d8a1b9894ec3a7,
   0x649c294a61b7ad73, 0x266cc8a1c85d9be0, 0xe17dea9d3263c055, 0xa38d0b769b89f6c6,
   0x2daf4f0f6ff541ac, 0x6f5faee4c61f773f, 0xa84e8cd83c212c8a, 0xeabe6d3395cb1a19,
   0x90c79d3fedd3f122, 0xd2377cd44439c7b1, 0x15265ee8be079c04, 0x57d6bf0317edaa97,
   0xd9f4fb7ae3911dfd, 0x9b041a914a7b2b6e, 0x5c1538adb04570db, 0x1ee5d94619af4648,
   0x02a151b5f156289c, 0x4051b05e58bc1e0f, 0x87409262a28245ba, 0xc5b073890b687329,
   0x4b9237f0ff14c443, 0x0962d61b56fef2d0, 0xce73f427acc0a965, 0x8c8315cc052a9ff6,
   0x3a80143f5cf17f13, 0x7870f5d4f51b4980, 0xbf61d7e80f251235, 0xfd913603a6cf24a6,
   0x73b3727a52b393cc, 0x31439391fb59a55f, 0xf652b1ad0167feea, 0xb4a25046a88dc879,
   0xa8e6d8b54074a6ad, 0xea16395ee99e903e, 0x2d071b6213a0cb8b, 0x6ff7fa89ba4afd18,
   0xe1d5bef04e364a72, 0xa3255f1be7dc7ce1, 0x64347d271de22754, 0x26c49cccb40811c7,
   0x5cbd6cc0cc10fafc, 0x1e4d8d2b65facc6f, 0xd95caf179fc497da, 0x9bac4efc362ea149,
   0x158e0a85c2521623, 0x577eeb6e6bb820b0, 0x906fc95291867b05, 0xd29f28b9386c4d96,
   0xcedba04ad0952342, 0x8c2b41a1797f15d1, 0x4b3a639d83414e64, 0x09ca82762aab78f7,
   0x87e8c60fded7cf9d, 0xc51827e4773df90e, 0x020905d88d03a2bb, 0x40f9e43324e99428,
   0x2cffe7d5975e55e2, 0x6e0f063e3eb46371, 0xa91e2402c48a38c4, 0xebeec5e96d600e57,
   0x65cc8190991cb93d, 0x273c607b30f68fae, 0xe02d4247cac8d41b, 0xa2dda3ac6322e288,
   0xbe992b5f8bdb8c5c, 0xfc69cab42231bacf, 0x3b78e888d80fe17a, 0x7988096371e5d7e9,
   0xf7aa4d1a85996083, 0xb55aacf12c735610, 0x724b8ecdd64d0da5, 0x30bb6f267fa73b36,
   0x4ac29f2a07bfd00d, 0x08327ec1ae55e69e, 0xcf235cfd546bbd2b, 0x8dd3bd16fd818bb8,
   0x03f1f96f09fd3cd2, 0x41011884a0170a41, 0x86103ab85a2951f4, 0xc4e0db53f3c36767,
   0xd8a453a01b3a09b3, 0x9a54b24bb2d03f20, 0x5d45907748ee6495, 0x1fb5719ce1045206,
   0x919735e51578e56c, 0xd367d40ebc92d3ff, 0x1476f63246ac884a, 0x568617d9ef46bed9,
   0xe085162ab69d5e3c, 0xa275f7c11f7768af, 0x6564d5fde549331a, 0x279434164ca30589,
   0xa9b6706fb8dfb2e3, 0xeb46918411358470, 0x2c57b3b8eb0bdfc5, 0x6ea7525342e1e956,
   0x72e3daa0aa188782, 0x30133b4b03f2b111, 0xf7021977f9cceaa4, 0xb5f2f89c5026dc37,
   0x3bd0bce5a45a6b5d, 0x79205d0e0db05dce, 0xbe317f32f78e067b, 0xfcc19ed95e6430e8,
   0x86b86ed5267cdbd3, 0xc4488f3e8f96ed40, 0x0359ad0275a8b6f5, 0x41a94ce9dc428066,
   0xcf8b0890283e370c, 0x8d7be97b81d4019f, 0x4a6acb477bea5a2a, 0x089a2aacd2006cb9,
   0x14dea25f3af9026d, 0x562e43b4931334fe, 0x913f6188692d6f4b, 0xd3cf8063c0c759d8,
   0x5dedc41a34bbeeb2, 0x1f1d25f19d51d821, 0xd80c07cd676f8394, 0x9afce626ce85b507]

def crc64IsoReflTable : List Nat :=
  [0x0000000000000000, 0x01b0000000000000, 0x0360000000000000, 0x02d0000000000000,
   0x06c0000000000000, 0x0770000000000000, 0x05a0000000000000, 0x0410000000000000,
   0x0d80000000000000, 0x0c30000000000000, 0x0ee0000000000000, 0x0f50000000000000,
   0x0b40000000000000, 0x0af0000000000000, 0x0820000000000000, 0x0990000000000000,
   0x1b00000000000000, 0x1ab0000000000000, 0x1860000000000000, 0x19d0000000000000,
   0x1dc0000000000000, 0x1c70000000000000, 0x1ea0000000000000, 0x1f10000000000000,
   0x1680000000000000, 0x1730000000000000, 0x15e0000000000000, 0x1450000000000000,
   0x1040000000000000, 0x11f0000000000000, 0x1320000000000000, 0x1290000000000000,
   0x3600000000000000, 0x37b0000000000000, 0x3560000000000000, 0x34d0000000000000,
   0x30c0000000000000, 0x3170000000000000, 0x33a0000000000000, 0x3210000000000000,
   0x3b80000000000000, 0x3a30000000000000, 0x38e0000000000000, 0x3950000000000000,
   0x3d40000000000000, 0x3cf0000000000000, 0x3e20000000000000, 0x3f90000000000000,
   0x2d00000000000000, 0x2cb0000000000000, 0x2e60000000000000, 0x2fd0000000000000,
   0x2bc0000000000000, 0x2a70000000000000, 0x28a0000000000000, 0x2910000000000000,
   0x2080000000000000, 0x2130000000000000, 0x23e0000000000000, 0x2250000000000000,
   0x2640000000000000, 0x27f0000000000000, 0x2520000000000000, 0x2490000000000000,
   0x6c00000000000000, 0x6db0000000000000, 0x6f60000000000000, 0x6ed0000000000000,
   0x6ac0000000000000, 0x6b70000000000000, 0x69a0000000000000, 0x6810000000000000,
   0x6180000000000000, 0x6030000000000000, 0x62e0000000000000, 0x6350000000000000,
   0x6740000000000000, 0x66f0000000000000, 0x6420000000000000, 0x6590000000000000,
   0x7700000000000000, 0x76b0000000000000, 0x7460000000000000, 0x75d0000000000000,
   0x71c0000000000000, 0x7070000000000000, 0x72a0000000000000, 0x7310000000000000,
   0x7a80000000000000, 0x7b30000000000000, 0x79e0000000000000, 0x7850000000000000,
   0x7c40000000000000, 0x7df0000000000000, 0x7f20000000000000, 0x7e90000000000000,
   0x5a00000000000000, 0x5bb0000000000000, 0x5960000000000000, 0x58d0000000000000,
   0x5cc0000000000000, 0x5d70000000000000, 0x5fa0000000000000, 0x5e10000000000000,
   0x5780000000000000, 0x5630000000000000, 0x54e0000000000000, 0x5550000000000000,
   0x5140000000000000, 0x50f0000000000000, 0x5220000000000000, 0x5390000000000000,
   0x4100000000000000, 0x40b0000000000000, 0x4260000000000000, 0x43d0000000000000,
   0x47c0000000000000, 0x4670000000000000, 0x44a0000000000000, 0x4510000000000000,
   0x4c80000000000000, 0x4d30000000000000, 0x4fe0000000000000, 0x4e50000000000000,
   0x4a40000000000000, 0x4bf0000000000000, 0x4920000000000000, 0x4890000000000000,
   0xd800000000000000, 0xd9b0000000000000, 0xdb60000000000000, 0xdad0000000000000,
   0xdec0000000000000, 0xdf70000000000000, 0xdda0000000000000, 0xdc10000000000000,
   0xd580000000000000, 0xd430000000000000, 0xd6e0000000000000, 0xd750000000000000,
   0xd340000000000000, 0xd2f0000000000000, 0xd020000000000000, 0xd190000000000000,
   0xc300000000000000, 0xc2b0000000000000, 0xc060000000000000, 0xc1d0000000000000,
   0xc5c0000000000000, 0xc470000000000000, 0xc6a0000000000000, 0xc710000000000000,
   0xce80000000000000, 0xcf30000000000000, 0xcde0000000000000, 0xcc50000000000000,
   0xc840000000000000, 0xc9f0000000000000, 0xcb20000000000000, 0xca90000000000000,
   0xee00000000000000, 0xefb0000000000000, 0xed60000000000000, 0xecd0000000000000,
   0xe8c0000000000000, 0xe970000000000000, 0xeba0000000000000, 0xea10000000000000,
   0xe380000000000000, 0xe230000000000000, 0xe0e0000000000000, 0xe150000000000000,
   0xe540000000000000, 0xe4f0000000000000, 0xe620000000000000, 0xe790000000000000,
   0xf500000000000000, 0xf4b0000000000000, 0xf660000000000000, 0xf7d0000000000000,
   0xf3c0000000000000, 0xf270000000000000, 0xf0a0000000000000, 0xf110000000000000,
   0xf880000000000000, 0xf930000000000000, 0xfbe0000000000000, 0xfa50000000000000,
   0xfe40000000000000, 0xfff0000000000000, 0xfd20000000000000, 0xfc90000000000000,
   0xb400000000000000, 0xb5b0000000000000, 0xb760000000000000, 0xb6d0000000000000,
   0xb2c0000000000000, 0xb370000000000000, 0xb1a0000000000000, 0xb010000000000000,
   0xb980000000000000, 0xb830000000000000, 0xbae0000000000000, 0xbb50000000000000,
   0xbf40000000000000, 0xbef0000000000000, 0xbc20000000000000, 0xbd90000000000000,
   0xaf00000000000000, 0xaeb0000000000000, 0xac60000000000000, 0xadd0000000000000,
   0xa9c0000000000000, 0xa870000000000000, 0xaaa0000000000000, 0xab10000000000000,
   0xa280000000000000, 0xa330000000000000, 0xa1e0000000000000, 0xa050000000000000,
   0xa440000000000000, 0xa5f0000000000000, 0xa720000000000000, 0xa690000000000000,
   0x8200000000000000, 0x83b0000000000000, 0x8160000000000000, 0x80d0000000000000,
   0x84c0000000000000, 0x8570000000000000, 0x87a0000000000000, 0x8610000000000000,
   0x8f80000000000000, 0x8e30000000000000, 0x8ce0000000000000, 0x8d50000000000000,
   0x8940000000000000, 0x88f0000000000000, 0x8a20000000000000, 0x8b90000000000000,
   0x9900000000000000, 0x98b0000000000000, 0x9a60000000000000, 0x9bd0000000000000,
   0x9fc0000000000000, 0x9e70000000000000, 0x9ca0000000000000, 0x9d10000000000000,
   0x9480000000000000, 0x9530000000000000, 0x97e0000000000000, 0x9650000000000000,
   0x9240000000000000, 0x93f0000000000000, 0x9120000000000000, 0x9090000000000000]

def crc64IsoNormTable : List Nat :=
  [0x0000000000000000, 0x000000000000001b, 0x0000000000000036, 0x000000000000002d,
   0x000000000000006c, 0x0000000000000077, 0x000000000000005a, 0x0000000000000041,
   0x00000000000000d8, 0x00000000000000c3, 0x00000000000000ee, 0x00000000000000f5,
   0x00000000000000b4, 0x00000000000000af, 0x0000000000000082, 0x0000000000000099,
   0x00000000000001b0, 0x00000000000001ab, 0x0000000000000186, 0x000000000000019d,
   0x00000000000001dc, 0x00000000000001c7, 0x00000000000001ea, 0x00000000000001f1,
   0x0000000000000168, 0x0000000000000173, 0x000000000000015e, 0x0000000000000145,
   0x0000000000000104, 0x000000000000011f, 0x0000000000000132, 0x0000000000000129,
   0x0000000000000360, 0x000000000000037b, 0x0000000000000356, 0x000000000000034d,
   0x000000000000030c, 0x0000000000000317, 0x000000000000033a, 0x0000000000000321,
   0x00000000000003b8, 0x00000000000003a3, 0x000000000000038e, 0x0000000000000395,
   0x00000000000003d4, 0x00000000000003cf, 0x00000000000003e2, 0x00000000000003f9,
   0x00000000000002d0, 0x00000000000002cb, 0x00000000000002e6, 0x00000000000002fd,
   0x00000000000002bc, 0x00000000000002a7, 0x000000000000028a, 0x0000000000000291,
   0x0000000000000208, 0x0000000000000213, 0x000000000000023e, 0x0000000000000225,
   0x0000000000000264, 0x000000000000027f, 0x0000000000000252, 0x0000000000000249,
   0x00000000000006c0, 0x00000000000006db, 0x00000000000006f6, 0x00000000000006ed,
   0x00000000000006ac, 0x00000000000006b7, 0x000000000000069a, 0x0000000000000681,
   0x0000000000000618, 0x0000000000000603, 0x000000000000062e, 0x0000000000000635,
   0x0000000000000674, 0x000000000000066f, 0x0000000000000642, 0x0000000000000659,
   0x0000000000000770, 0x000000000000076b, 0x0000000000000746, 0x000000000000075d,
   0x000000000000071c, 0x0000000000000707, 0x000000000000072a, 0x0000000000000731,
   0x00000000000007a8, 0x00000000000007b3, 0x000000000000079e, 0x0000000000000785,
   0x00000000000007c4, 0x00000000000007df, 0x00000000000007f2, 0x00000000000007e9,
   0x00000000000005a0, 0x00000000000005bb, 0x0000000000000596, 0x000000000000058d,
   0x00000000000005cc, 0x00000000000005d7, 0x00000000000005fa, 0x00000000000005e1,
   0x0000000000000578, 0x0000000000000563, 0x000000000000054e, 0x0000000000000555,
   0x0000000000000514, 0x000000000000050f, 0x0000000000000522, 0x0000000000000539,
   0x0000000000000410, 0x000000000000040b, 0x0000000000000426, 0x000000000000043d,
   0x000000000000047c, 0x0000000000000467, 0x000000000000044a, 0x0000000000000451,
   0x00000000000004c8, 0x00000000000004d3, 0x00000000000004fe, 0x00000000000004e5,
   0x00000000000004a4, 0x00000000000004bf, 0x0000000000000492, 0x0000000000000489,
   0x0000000000000d80, 0x0000000000000d9b, 0x0000000000000db6, 0x0000000000000dad,
   0x0000000000000dec, 0x0000000000000df7, 0x0000000000000dda, 0x0000000000000dc1,
   0x0000000000000d58, 0x0000000000000d43, 0x0000000000000d6e, 0x0000000000000d75,
   0x0000000000000d34, 0x0000000000000d2f, 0x0000000000000d02, 0x0000000000000d19,
   0x0000000000000c30, 0x0000000000000c2b, 0x0000000000000c06, 0x0000000000000c1d,
   0x0000000000000c5c, 0x0000000000000c47, 0x0000000000000c6a, 0x0000000000000c71,
   0x0000000000000ce8, 0x0000000000000cf3, 0x0000000000000cde, 0x0000000000000cc5,
   0x0000000000000c84, 0x0000000000000c9f, 0x0000000000000cb2, 0x0000000000000ca9,
   0x0000000000000ee0, 0x0000000000000efb, 0x0000000000000ed6, 0x0000000000000ecd,
   0x0000000000000e8c, 0x0000000000000e97, 0x0000000000000eba, 0x0000000000000ea1,
   0x0000000000000e38, 0x0000000000000e23, 0x0000000000000e0e, 0x0000000000000e15,
   0x0000000000000e54, 0x0000000000000e4f, 0x0000000000000e62, 0x0000000000000e79,
   0x0000000000000f50, 0x0000000000000f4b, 0x0000000000000f66, 0x0000000000000f7d,
   0x0000000000000f3c, 0x0000000000000f27, 0x0000000000000f0a, 0x0000000000000f11,
   0x0000000000000f88, 0x0000000000000f93, 0x0000000000000fbe, 0x0000000000000fa5,
   0x0000000000000fe4, 0x0000000000000fff, 0x0000000000000fd2, 0x0000000000000fc9,
   0x0000000000000b40, 0x0000000000000b5b, 0x0000000000000b76, 0x0000000000000b6d,
   0x0000000000000b2c, 0x0000000000000b37, 0x0000000000000b1a, 0x0000000000000b01,
   0x0000000000000b98, 0x0000000000000b83, 0x0000000000000bae, 0x0000000000000bb5,
   0x0000000000000bf4, 0x0000000000000bef, 0x0000000000000bc2, 0x0000000000000bd9,
   0x0000000000000af0, 0x0000000000000aeb, 0x0000000000000ac6, 0x0000000000000add,
   0x0000000000000a9c, 0x0000000000000a87, 0x0000000000000aaa, 0x0000000000000ab1,
   0x0000000000000a28, 0x0000000000000a33, 0x0000000000000a1e, 0x0000000000000a05,
   0x0000000000000a44, 0x0000000000000a5f, 0x0000000000000a72, 0x0000000000000a69,
   0x0000000000000820, 0x000000000000083b, 0x0000000000000816, 0x000000000000080d,
   0x000000000000084c, 0x0000000000000857, 0x000000000000087a, 0x0000000000000861,
   0x00000000000008f8, 0x00000000000008e3, 0x00000000000008ce, 0x00000000000008d5,
   0x0000000000000894, 0x000000000000088f, 0x00000000000008a2, 0x00000000000008b9,
   0x0000000000000990, 0x000000000000098b, 0x00000000000009a6, 0x00000000000009bd,
   0x00000000000009fc, 0x00000000000009e7, 0x00000000000009ca, 0x00000000000009d1,
   0x0000000000000948, 0x0000000000000953, 0x000000000000097e, 0x0000000000000965,
   0x0000000000000924, 0x000000000000093f, 0x0000000000000912, 0x0000000000000909]

def crc64JonesReflTable : List Nat :=
  [0x0000000000000000, 0x7ad870c830358979, 0xf5b0e190606b12f2, 0x8f689158505e9b8b,
   0xc038e5739841b68f, 0xbae095bba8743ff6, 0x358804e3f82aa47d, 0x4f50742bc81f2d04,
   0xab28ecb46814fe75, 0xd1f09c7c5821770c, 0x5e980d24087fec87, 0x24407dec384a65fe,
   0x6b1009c7f05548fa, 0x11c8790fc060c183, 0x9ea0e857903e5a08, 0xe478989fa00bd371,
   0x7d08ff3b88be6f81, 0x07d08ff3b88be6f8, 0x88b81eabe8d57d73, 0xf2606e63d8e0f40a,
   0xbd301a4810ffd90e, 0xc7e86a8020ca5077, 0x4880fbd87094cbfc, 0x32588b1040a14285,
   0xd620138fe0aa91f4, 0xacf86347d09f188d, 0x2390f21f80c18306, 0x594882d7b0f40a7f,
   0x1618f6fc78eb277b, 0x6cc0863448deae02, 0xe3a8176c18803589, 0x997067a428b5bcf0,
   0xfa11fe77117cdf02, 0x80c98ebf2149567b, 0x0fa11fe77117cdf0, 0x75796f2f41224489,
   0x3a291b04893d698d, 0x40f16bccb908e0f4, 0xcf99fa94e9567b7f, 0xb5418a5cd963f206,
   0x513912c379682177, 0x2be1620b495da80e, 0xa489f35319033385, 0xde51839b2936bafc,
   0x9101f7b0e12997f8, 0xebd98778d11c1e81, 0x64b116208142850a, 0x1e6966e8b1770c73,
   0x8719014c99c2b083, 0xfdc17184a9f739fa, 0x72a9e0dcf9a9a271, 0x08719014c99c2b08,
   0x4721e43f0183060c, 0x3df994f731b68f75, 0xb29105af61e814fe, 0xc849756751dd9d87,
   0x2c31edf8f1d64ef6, 0x56e99d30c1e3c78f, 0xd9810c6891bd5c04, 0xa3597ca0a188d57d,
   0xec09088b6997f879, 0x96d1784359a27100, 0x19b9e91b09fcea8b, 0x636199d339c963f2,
   0xdf7adabd7a6e2d6f, 0xa5a2aa754a5ba416, 0x2aca3b2d1a053f9d, 0x50124be52a30b6e4,
   0x1f423fcee22f9be0, 0x659a4f06d21a1299, 0xeaf2de5e82448912, 0x902aae96b271006b,
   0x74523609127ad31a, 0x0e8a46c1224f5a63, 0x81e2d7997211c1e8, 0xfb3aa75142244891,
   0xb46ad37a8a3b6595, 0xceb2a3b2ba0eecec, 0x41da32eaea507767, 0x3b024222da65fe1e,
   0xa2722586f2d042ee, 0xd8aa554ec2e5cb97, 0x57c2c41692bb501c, 0x2d1ab4dea28ed965,
   0x624ac0f56a91f461, 0x1892b03d5aa47d18, 0x97fa21650afae693, 0xed2251ad3acf6fea,
   0x095ac9329ac4bc9b, 0x7382b9faaaf135e2, 0xfcea28a2faafae69, 0x8632586aca9a2710,
   0xc9622c4102850a14, 0xb3ba5c8932b0836d, 0x3cd2cdd162ee18e6, 0x460abd1952db919f,
   0x256b24ca6b12f26d, 0x5fb354025b277b14, 0xd0dbc55a0b79e09f, 0xaa03b5923b4c69e6,
   0xe553c1b9f35344e2, 0x9f8bb171c366cd9b, 0x10e3202993385610, 0x6a3b50e1a30ddf69,
   0x8e43c87e03060c18, 0xf49bb8b633338561, 0x7bf329ee636d1eea, 0x012b592653589793,
   0x4e7b2d0d9b47ba97, 0x34a35dc5ab7233ee, 0xbbcbcc9dfb2ca865, 0xc113bc55cb19211c,
   0x5863dbf1e3ac9dec, 0x22bbab39d3991495, 0xadd33a6183c78f1e, 0xd70b4aa9b3f20667,
   0x985b3e827bed2b63, 0xe2834e4a4bd8a21a, 0x6debdf121b863991, 0x1733afda2bb3b0e8,
   0xf34b37458bb86399, 0x8993478dbb8deae0, 0x06fbd6d5ebd3716b, 0x7c23a61ddbe6f812,
   0x3373d23613f9d516, 0x49aba2fe23cc5c6f, 0xc6c333a67392c7e4, 0xbc1b436e43a74e9d,
   0x95ac9329ac4bc9b5, 0xef74e3e19c7e40cc, 0x601c72b9cc20db47, 0x1ac40271fc15523e,
   0x5594765a340a7f3a, 0x2f4c0692043ff643, 0xa02497ca54616dc8, 0xdafce7026454e4b1,
   0x3e847f9dc45f37c0, 0x445c0f55f46abeb9, 0xcb349e0da4342532, 0xb1eceec59401ac4b,
   0xfebc9aee5c1e814f, 0x8464ea266c2b0836, 0x0b0c7b7e3c7593bd, 0x71d40bb60c401ac4,
   0xe8a46c1224f5a634, 0x927c1cda14c02f4d, 0x1d148d82449eb4c6, 0x67ccfd4a74ab3dbf,
   0x289c8961bcb410bb, 0x5244f9a98c8199c2, 0xdd2c68f1dcdf0249, 0xa7f41839ecea8b30,
   0x438c80a64ce15841, 0x3954f06e7cd4d138, 0xb63c61362c8a4ab3, 0xcce411fe1cbfc3ca,
   0x83b465d5d4a0eece, 0xf96c151de49567b7, 0x76048445b4cbfc3c, 0x0cdcf48d84fe7545,
   0x6fbd6d5ebd3716b7, 0x15651d968d029fce, 0x9a0d8ccedd5c0445, 0xe0d5fc06ed698d3c,
   0xaf85882d2576a038, 0xd55df8e515432941, 0x5a3569bd451db2ca, 0x20ed197575283bb3,
   0xc49581ead523e8c2, 0xbe4df122e51661bb, 0x3125607ab548fa30, 0x4bfd10b2857d7349,
   0x04ad64994d625e4d, 0x7e7514517d57d734, 0xf11d85092d094cbf, 0x8bc5f5c11d3cc5c6,
   0x12b5926535897936, 0x686de2ad05bcf04f, 0xe70573f555e26bc4, 0x9ddd033d65d7e2bd,
   0xd28d7716adc8cfb9, 0xa85507de9dfd46c0, 0x273d9686cda3dd4b, 0x5de5e64efd965432,
   0xb99d7ed15d9d8743, 0xc3450e196da80e3a, 0x4c2d9f413df695b1, 0x36f5ef890dc31cc8,
   0x79a59ba2c5dc31cc, 0x037deb6af5e9b8b5, 0x8c157a32a5b7233e, 0xf6cd0afa9582aa47,
   0x4ad64994d625e4da, 0x300e395ce6106da3, 0xbf66a804b64ef628, 0xc5bed8cc867b7f51,
   0x8aeeace74e645255, 0xf036dc2f7e51db2c, 0x7f5e4d772e0f40a7, 0x05863dbf1e3ac9de,
   0xe1fea520be311aaf, 0x9b26d5e88e0493d6, 0x144e44b0de5a085d, 0x6e963478ee6f8124,
   0x21c640532670ac20, 0x5b1e309b16452559, 0xd476a1c3461bbed2, 0xaeaed10b762e37ab,
   0x37deb6af5e9b8b5b, 0x4d06c6676eae0222, 0xc26e573f3ef099a9, 0xb8b627f70ec510d0,
   0xf7e653dcc6da3dd4, 0x8d3e2314f6efb4ad, 0x0256b24ca6b12f26, 0x788ec2849684a65f,
   0x9cf65a1b368f752e, 0xe62e2ad306bafc57, 0x6946bb8b56e467dc, 0x139ecb4366d1eea5,
   0x5ccebf68aecec3a1, 0x2616cfa09efb4ad8, 0xa97e5ef8cea5d153, 0xd3a62e30fe90582a,
   0xb0c7b7e3c7593bd8, 0xca1fc72bf76cb2a1, 0x45775673a732292a, 0x3faf26bb9707a053,
   0x70ff52905f188d57, 0x0a2722586f2d042e, 0x854fb3003f739fa5, 0xff97c3c80f4616dc,
   0x1bef5b57af4dc5ad, 0x61372b9f9f784cd4, 0xee5fbac7cf26d75f, 0x9487ca0fff135e26,
   0xdbd7be24370c7322, 0xa10fceec0739fa5b, 0x2e675fb4576761d0, 0x54bf2f7c6752e8a9,
   0xcdcf48d84fe75459, 0xb71738107fd2dd20, 0x387fa9482f8c46ab, 0x42a7d9801fb9cfd2,
   0x0df7adabd7a6e2d6, 0x772fdd63e7936baf, 0xf8474c3bb7cdf024, 0x829f3cf387f8795d,
   0x66e7a46c27f3aa2c, 0x1c3fd4a417c62355, 0x935745fc4798b8de, 0xe98f353477ad31a7,
   0xa6df411fbfb21ca3, 0xdc0731d78f8795da, 0x536fa08fdfd90e51, 0x29b7d047efec8728]

def crc64JonesNormTable : List Nat :=
  [0x0000000000000000, 0xad93d23594c935a9, 0xf6b4765ebd5b5efb, 0x5b27a46b29926b52,
   0x40fb3e88ee7f885f, 0xed68ecbd7ab6bdf6, 0xb64f48d65324d6a4, 0x1bdc9ae3c7ede30d,
   0x81f67d11dcff10be, 0x2c65af2448362517, 0x77420b4f61a44e45, 0xdad1d97af56d7bec,
   0xc10d4399328098e1, 0x6c9e91aca649ad48, 0x37b935c78fdbc61a, 0x9a2ae7f21b12f3b3,
   0xae7f28162d3714d5, 0x03ecfa23b9fe217c, 0x58cb5e48906c4a2e, 0xf5588c7d04a57f87,
   0xee84169ec3489c8a, 0x4317c4ab5781a923, 0x183060c07e13c271, 0xb5a3b2f5eadaf7d8,
   0x2f895507f1c8046b, 0x821a8732650131c2, 0xd93d23594c935a90, 0x74aef16cd85a6f39,
   0x6f726b8f1fb78c34, 0xc2e1b9ba8b7eb99d, 0x99c61dd1a2ecd2cf, 0x3455cfe43625e766,
   0xf16d8219cea71c03, 0x5cfe502c5a6e29aa, 0x07d9f44773fc42f8, 0xaa4a2672e7357751,
   0xb196bc9120d8945c, 0x1c056ea4b411a1f5, 0x4722cacf9d83caa7, 0xeab118fa094aff0e,
   0x709bff0812580cbd, 0xdd082d3d86913914, 0x862f8956af035246, 0x2bbc5b633bca67ef,
   0x3060c180fc2784e2, 0x9df313b568eeb14b, 0xc6d4b7de417cda19, 0x6b4765ebd5b5efb0,
   0x5f12aa0fe39008d6, 0xf281783a77593d7f, 0xa9a6dc515ecb562d, 0x04350e64ca026384,
   0x1fe994870def8089, 0xb27a46b29926b520, 0xe95de2d9b0b4de72, 0x44ce30ec247debdb,
   0xdee4d71e3f6f1868, 0x7377052baba62dc1, 0x2850a14082344693, 0x85c3737516fd733a,
   0x9e1fe996d1109037, 0x338c3ba345d9a59e, 0x68ab9fc86c4bcecc, 0xc5384dfdf882fb65,
   0x4f48d60609870daf, 0xe2db04339d4e3806, 0xb9fca058b4dc5354, 0x146f726d201566fd,
   0x0fb3e88ee7f885f0, 0xa2203abb7331b059, 0xf9079ed05aa3db0b, 0x54944ce5ce6aeea2,
   0xcebeab17d5781d11, 0x632d792241b128b8, 0x380add49682343ea, 0x95990f7cfcea7643,
   0x8e45959f3b07954e, 0x23d647aaafcea0e7, 0x78f1e3c1865ccbb5, 0xd56231f41295fe1c,
   0xe137fe1024b0197a, 0x4ca42c25b0792cd3, 0x1783884e99eb4781, 0xba105a7b0d227228,
   0xa1ccc098cacf9125, 0x0c5f12ad5e06a48c, 0x5778b6c67794cfde, 0xfaeb64f3e35dfa77,
   0x60c18301f84f09c4, 0xcd5251346c863c6d, 0x9675f55f4514573f, 0x3be6276ad1dd6296,
   0x203abd891630819b, 0x8da96fbc82f9b432, 0xd68ecbd7ab6bdf60, 0x7b1d19e23fa2eac9,
   0xbe25541fc72011ac, 0x13b6862a53e92405, 0x489122417a7b4f57, 0xe502f074eeb27afe,
   0xfede6a97295f99f3, 0x534db8a2bd96ac5a, 0x086a1cc99404c708, 0xa5f9cefc00cdf2a1,
   0x3fd3290e1bdf0112, 0x9240fb3b8f1634bb, 0xc9675f50a6845fe9, 0x64f48d65324d6a40,
   0x7f281786f5a0894d, 0xd2bbc5b36169bce4, 0x899c61d848fbd7b6, 0x240fb3eddc32e21f,
   0x105a7c09ea170579, 0xbdc9ae3c7ede30d0, 0xe6ee0a57574c5b82, 0x4b7dd862c3856e2b,
   0x50a1428104688d26, 0xfd3290b490a1b88f, 0xa61534dfb933d3dd, 0x0b86e6ea2dfae674,
   0x91ac011836e815c7, 0x3c3fd32da221206e, 0x671877468bb34b3c, 0xca8ba5731f7a7e95,
   0xd1573f90d8979d98, 0x7cc4eda54c5ea831, 0x27e349ce65ccc363, 0x8a709bfbf105f6ca,
   0x9e91ac0c130e1b5e, 0x33027e3987c72ef7, 0x6825da52ae5545a5, 0xc5b608673a9c700c,
   0xde6a9284fd719301, 0x73f940b169b8a6a8, 0x28dee4da402acdfa, 0x854d36efd4e3f853,
   0x1f67d11dcff10be0, 0xb2f403285b383e49, 0xe9d3a74372aa551b, 0x44407576e66360b2,
   0x5f9cef95218e83bf, 0xf20f3da0b547b616, 0xa92899cb9cd5dd44, 0x04bb4bfe081ce8ed,
   0x30ee841a3e390f8b, 0x9d7d562faaf03a22, 0xc65af24483625170, 0x6bc9207117ab64d9,
   0x7015ba92d04687d4, 0xdd8668a7448fb27d, 0x86a1cccc6d1dd92f, 0x2b321ef9f9d4ec86,
   0xb118f90be2c61f35, 0x1c8b2b3e760f2a9c, 0x47ac8f555f9d41ce, 0xea3f5d60cb547467,
   0xf1e3c7830cb9976a, 0x5c7015b69870a2c3, 0x0757b1ddb1e2c991, 0xaac463e8252bfc38,
   0x6ffc2e15dda9075d, 0xc26ffc20496032f4, 0x9948584b60f259a6, 0x34db8a7ef43b6c0f,
   0x2f07109d33d68f02, 0x8294c2a8a71fbaab, 0xd9b366c38e8dd1f9, 0x7420b4f61a44e450,
   0xee0a5304015617e3, 0x43998131959f224a, 0x18be255abc0d4918, 0xb52df76f28c47cb1,
   0xaef16d8cef299fbc, 0x0362bfb97be0aa15, 0x58451bd25272c147, 0xf5d6c9e7c6bbf4ee,
   0xc1830603f09e1388, 0x6c10d43664572621, 0x3737705d4dc54d73, 0x9aa4a268d90c78da,
   0x8178388b1ee19bd7, 0x2cebeabe8a28ae7e, 0x77cc4ed5a3bac52c, 0xda5f9ce03773f085,
   0x40757b122c610336, 0xede6a927b8a8369f, 0xb6c10d4c913a5dcd, 0x1b52df7905f36864,
   0x008e459ac21e8b69, 0xad1d97af56d7bec0, 0xf63a33c47f45d592, 0x5ba9e1f1eb8ce03b,
   0xd1d97a0a1a8916f1, 0x7c4aa83f8e402358, 0x276d0c54a7d2480a, 0x8afede61331b7da3,
   0x91224482f4f69eae, 0x3cb196b7603fab07, 0x679632dc49adc055, 0xca05e0e9dd64f5fc,
   0x502f071bc676064f, 0xfdbcd52e52bf33e6, 0xa69b71457b2d58b4, 0x0b08a370efe46d1d,
   0x10d4399328098e10, 0xbd47eba6bcc0bbb9, 0xe6604fcd9552d0eb, 0x4bf39df8019be542,
   0x7fa6521c37be0224, 0xd2358029a377378d, 0x891224428ae55cdf, 0x2481f6771e2c6976,
   0x3f5d6c94d9c18a7b, 0x92cebea14d08bfd2, 0xc9e91aca649ad480, 0x647ac8fff053e129,
   0xfe502f0deb41129a, 0x53c3fd387f882733, 0x08e45953561a4c61, 0xa5778b66c2d379c8,
   0xbeab1185053e9ac5, 0x1338c3b091f7af6c, 0x481f67dbb865c43e, 0xe58cb5ee2cacf197,
   0x20b4f813d42e0af2, 0x8d272a2640e73f5b, 0xd6008e4d69755409, 0x7b935c78fdbc61a0,
   0x604fc69b3a5182ad, 0xcddc14aeae98b704, 0x96fbb0c5870adc56, 0x3b6862f013c3e9ff,
   0xa142850208d11a4c, 0x0cd157379c182fe5, 0x57f6f35cb58a44b7, 0xfa6521692143711e,
   0xe1b9bb8ae6ae9213, 0x4c2a69bf7267a7ba, 0x170dcdd45bf5cce8, 0xba9e1fe1cf3cf941,
   0x8ecbd005f9191e27, 0x235802306dd02b8e, 0x787fa65b444240dc, 0xd5ec746ed08b7575,
   0xce30ee8d17669678, 0x63a33cb883afa3d1, 0x388498d3aa3dc883, 0x95174ae63ef4fd2a,
   0x0f3dad1425e60e99, 0xa2ae7f21b12f3b30, 0xf989db4a98bd5062, 0x541a097f0c7465cb,
   0x4fc6939ccb9986c6, 0xe25541a95f50b36f, 0xb972e5c276c2d83d, 0x14e137f7e20bed94]

def crc64RocksoftReflTable : List Nat :=
  [0x0000000000000000, 0x7f6ef0c830358979, 0xfedde190606b12f2, 0x81b31158505e9b8b,
   0xc962e5739841b68f, 0xb60c15bba8743ff6, 0x37bf04e3f82aa47d, 0x48d1f42bc81f2d04,
   0xa61cecb46814fe75, 0xd9721c7c5821770c, 0x58c10d24087fec87, 0x27affdec384a65fe,
   0x6f7e09c7f05548fa, 0x1010f90fc060c183, 0x91a3e857903e5a08, 0xeecd189fa00bd371,
   0x78e0ff3b88be6f81, 0x078e0ff3b88be6f8, 0x863d1eabe8d57d73, 0xf953ee63d8e0f40a,
   0xb1821a4810ffd90e, 0xceecea8020ca5077, 0x4f5ffbd87094cbfc, 0x30310b1040a14285,
   0xdefc138fe0aa91f4, 0xa192e347d09f188d, 0x2021f21f80c18306, 0x5f4f02d7b0f40a7f,
   0x179ef6fc78eb277b, 0x68f0063448deae02, 0xe943176c18803589, 0x962de7a428b5bcf0,
   0xf1c1fe77117cdf02, 0x8eaf0ebf2149567b, 0x0f1c1fe77117cdf0, 0x7072ef2f41224489,
   0x38a31b04893d698d, 0x47cdebccb908e0f4, 0xc67efa94e9567b7f, 0xb9100a5cd963f206,
   0x57dd12c379682177, 0x28b3e20b495da80e, 0xa900f35319033385, 0xd66e039b2936bafc,
   0x9ebff7b0e12997f8, 0xe1d10778d11c1e81, 0x606216208142850a, 0x1f0ce6e8b1770c73,
   0x8921014c99c2b083, 0xf64ff184a9f739fa, 0x77fce0dcf9a9a271, 0x08921014c99c2b08,
   0x4043e43f0183060c, 0x3f2d14f731b68f75, 0xbe9e05af61e814fe, 0xc1f0f56751dd9d87,
   0x2f3dedf8f1d64ef6, 0x50531d30c1e3c78f, 0xd1e00c6891bd5c04, 0xae8efca0a188d57d,
   0xe65f088b6997f879, 0x9931f84359a27100, 0x1882e91b09fcea8b, 0x67ec19d339c963f2,
   0xd75adabd7a6e2d6f, 0xa8342a754a5ba416, 0x29873b2d1a053f9d, 0x56e9cbe52a30b6e4,
   0x1e383fcee22f9be0, 0x6156cf06d21a1299, 0xe0e5de5e82448912, 0x9f8b2e96b271006b,
   0x71463609127ad31a, 0x0e28c6c1224f5a63, 0x8f9bd7997211c1e8, 0xf0f5275142244891,
   0xb824d37a8a3b6595, 0xc74a23b2ba0eecec, 0x46f932eaea507767, 0x3997c222da65fe1e,
   0xafba2586f2d042ee, 0xd0d4d54ec2e5cb97, 0x5167c41692bb501c, 0x2e0934dea28ed965,
   0x66d8c0f56a91f461, 0x19b6303d5aa47d18, 0x980521650afae693, 0xe76bd1ad3acf6fea,
   0x09a6c9329ac4bc9b, 0x76c839faaaf135e2, 0xf77b28a2faafae69, 0x8815d86aca9a2710,
   0xc0c42c4102850a14, 0xbfaadc8932b0836d, 0x3e19cdd162ee18e6, 0x41773d1952db919f,
   0x269b24ca6b12f26d, 0x59f5d4025b277b14, 0xd846c55a0b79e09f, 0xa72835923b4c69e6,
   0xeff9c1b9f35344e2, 0x90973171c366cd9b, 0x1124202993385610, 0x6e4ad0e1a30ddf69,
   0x8087c87e03060c18, 0xffe938b633338561, 0x7e5a29ee636d1eea, 0x0134d92653589793,
   0x49e52d0d9b47ba97, 0x368bddc5ab7233ee, 0xb738cc9dfb2ca865, 0xc8563c55cb19211c,
   0x5e7bdbf1e3ac9dec, 0x21152b39d3991495, 0xa0a63a6183c78f1e, 0xdfc8caa9b3f20667,
   0x97193e827bed2b63, 0xe877ce4a4bd8a21a, 0x69c4df121b863991, 0x16aa2fda2bb3b0e8,
   0xf86737458bb86399, 0x8709c78dbb8deae0, 0x06bad6d5ebd3716b, 0x79d4261ddbe6f812,
   0x3105d23613f9d516, 0x4e6b22fe23cc5c6f, 0xcfd833a67392c7e4, 0xb0b6c36e43a74e9d,
   0x9a6c9329ac4bc9b5, 0xe50263e19c7e40cc, 0x64b172b9cc20db47, 0x1bdf8271fc15523e,
   0x530e765a340a7f3a, 0x2c608692043ff643, 0xadd397ca54616dc8, 0xd2bd67026454e4b1,
   0x3c707f9dc45f37c0, 0x431e8f55f46abeb9, 0xc2ad9e0da4342532, 0xbdc36ec59401ac4b,
   0xf5129aee5c1e814f, 0x8a7c6a266c2b0836, 0x0bcf7b7e3c7593bd, 0x74a18bb60c401ac4,
   0xe28c6c1224f5a634, 0x9de29cda14c02f4d, 0x1c518d82449eb4c6, 0x633f7d4a74ab3dbf,
   0x2bee8961bcb410bb, 0x548079a98c8199c2, 0xd53368f1dcdf0249, 0xaa5d9839ecea8b30,
   0x449080a64ce15841, 0x3bfe706e7cd4d138, 0xba4d61362c8a4ab3, 0xc52391fe1cbfc3ca,
   0x8df265d5d4a0eece, 0xf29c951de49567b7, 0x732f8445b4cbfc3c, 0x0c41748d84fe7545,
   0x6bad6d5ebd3716b7, 0x14c39d968d029fce, 0x95708ccedd5c0445, 0xea1e7c06ed698d3c,
   0xa2cf882d2576a038, 0xdda178e515432941, 0x5c1269bd451db2ca, 0x237c997575283bb3,
   0xcdb181ead523e8c2, 0xb2df7122e51661bb, 0x336c607ab548fa30, 0x4c0290b2857d7349,
   0x04d364994d625e4d, 0x7bbd94517d57d734, 0xfa0e85092d094cbf, 0x856075c11d3cc5c6,
   0x134d926535897936, 0x6c2362ad05bcf04f, 0xed9073f555e26bc4, 0x92fe833d65d7e2bd,
   0xda2f7716adc8cfb9, 0xa54187de9dfd46c0, 0x24f29686cda3dd4b, 0x5b9c664efd965432,
   0xb5517ed15d9d8743, 0xca3f8e196da80e3a, 0x4b8c9f413df695b1, 0x34e26f890dc31cc8,
   0x7c339ba2c5dc31cc, 0x035d6b6af5e9b8b5, 0x82ee7a32a5b7233e, 0xfd808afa9582aa47,
   0x4d364994d625e4da, 0x3258b95ce6106da3, 0xb3eba804b64ef628, 0xcc8558cc867b7f51,
   0x8454ace74e645255, 0xfb3a5c2f7e51db2c, 0x7a894d772e0f40a7, 0x05e7bdbf1e3ac9de,
   0xeb2aa520be311aaf, 0x944455e88e0493d6, 0x15f744b0de5a085d, 0x6a99b478ee6f8124,
   0x224840532670ac20, 0x5d26b09b16452559, 0xdc95a1c3461bbed2, 0xa3fb510b762e37ab,
   0x35d6b6af5e9b8b5b, 0x4ab846676eae0222, 0xcb0b573f3ef099a9, 0xb465a7f70ec510d0,
   0xfcb453dcc6da3dd4, 0x83daa314f6efb4ad, 0x0269b24ca6b12f26, 0x7d0742849684a65f,
   0x93ca5a1b368f752e, 0xeca4aad306bafc57, 0x6d17bb8b56e467dc, 0x12794b4366d1eea5,
   0x5aa8bf68aecec3a1, 0x25c64fa09efb4ad8, 0xa4755ef8cea5d153, 0xdb1bae30fe90582a,
   0xbcf7b7e3c7593bd8, 0xc399472bf76cb2a1, 0x422a5673a732292a, 0x3d44a6bb9707a053,
   0x759552905f188d57, 0x0afba2586f2d042e, 0x8b48b3003f739fa5, 0xf42643c80f4616dc,
   0x1aeb5b57af4dc5ad, 0x6585ab9f9f784cd4, 0xe436bac7cf26d75f, 0x9b584a0fff135e26,
   0xd389be24370c7322, 0xace74eec0739fa5b, 0x2d545fb4576761d0, 0x523aaf7c6752e8a9,
   0xc41748d84fe75459, 0xbb79b8107fd2dd20, 0x3acaa9482f8c46ab, 0x45a459801fb9cfd2,
   0x0d75adabd7a6e2d6, 0x721b5d63e7936baf, 0xf3a84c3bb7cdf024, 0x8cc6bcf387f8795d,
   0x620ba46c27f3aa2c, 0x1d6554a417c62355, 0x9cd645fc4798b8de, 0xe3b8b53477ad31a7,
   0xab69411fbfb21ca3, 0xd407b1d78f8795da, 0x55b4a08fdfd90e51, 0x2ada5047efec8728]

def crc64RocksoftNormTable : List Nat :=
  [0x0000000000000000, 0xad93d23594c93659, 0xf6b4765ebd5b5aeb, 0x5b27a46b29926cb2,
   0x40fb3e88ee7f838f, 0xed68ecbd7ab6b5d6, 0xb64f48d65324d964, 0x1bdc9ae3c7edef3d,
   0x81f67d11dcff071e, 0x2c65af2448363147, 0x77420b4f61a45df5, 0xdad1d97af56d6bac,
   0xc10d439932808491, 0x6c9e91aca649b2c8, 0x37b935c78fdbde7a, 0x9a2ae7f21b12e823,
   0xae7f28162d373865, 0x03ecfa23b9fe0e3c, 0x58cb5e48906c628e, 0xf5588c7d04a554d7,
   0xee84169ec348bbea, 0x4317c4ab57818db3, 0x183060c07e13e101, 0xb5a3b2f5eadad758,
   0x2f895507f1c83f7b, 0x821a873265010922, 0xd93d23594c936590, 0x74aef16cd85a53c9,
   0x6f726b8f1fb7bcf4, 0xc2e1b9ba8b7e8aad, 0x99c61dd1a2ece61f, 0x3455cfe43625d046,
   0xf16d8219cea74693, 0x5cfe502c5a6e70ca, 0x07d9f44773fc1c78, 0xaa4a2672e7352a21,
   0xb196bc9120d8c51c, 0x1c056ea4b411f345, 0x4722cacf9d839ff7, 0xeab118fa094aa9ae,
   0x709bff081258418d, 0xdd082d3d869177d4, 0x862f8956af031b66, 0x2bbc5b633bca2d3f,
   0x3060c180fc27c202, 0x9df313b568eef45b, 0xc6d4b7de417c98e9, 0x6b4765ebd5b5aeb0,
   0x5f12aa0fe3907ef6, 0xf281783a775948af, 0xa9a6dc515ecb241d, 0x04350e64ca021244,
   0x1fe994870deffd79, 0xb27a46b29926cb20, 0xe95de2d9b0b4a792, 0x44ce30ec247d91cb,
   0xdee4d71e3f6f79e8, 0x7377052baba64fb1, 0x2850a14082342303, 0x85c3737516fd155a,
   0x9e1fe996d110fa67, 0x338c3ba345d9cc3e, 0x68ab9fc86c4ba08c, 0xc5384dfdf88296d5,
   0x4f48d6060987bb7f, 0xe2db04339d4e8d26, 0xb9fca058b4dce194, 0x146f726d2015d7cd,
   0x0fb3e88ee7f838f0, 0xa2203abb73310ea9, 0xf9079ed05aa3621b, 0x54944ce5ce6a5442,
   0xcebeab17d578bc61, 0x632d792241b18a38, 0x380add496823e68a, 0x95990f7cfcead0d3,
   0x8e45959f3b073fee, 0x23d647aaafce09b7, 0x78f1e3c1865c6505, 0xd56231f41295535c,
   0xe137fe1024b0831a, 0x4ca42c25b079b543, 0x1783884e99ebd9f1, 0xba105a7b0d22efa8,
   0xa1ccc098cacf0095, 0x0c5f12ad5e0636cc, 0x5778b6c677945a7e, 0xfaeb64f3e35d6c27,
   0x60c18301f84f8404, 0xcd5251346c86b25d, 0x9675f55f4514deef, 0x3be6276ad1dde8b6,
   0x203abd891630078b, 0x8da96fbc82f931d2, 0xd68ecbd7ab6b5d60, 0x7b1d19e23fa26b39,
   0xbe25541fc720fdec, 0x13b6862a53e9cbb5, 0x489122417a7ba707, 0xe502f074eeb2915e,
   0xfede6a97295f7e63, 0x534db8a2bd96483a, 0x086a1cc994042488, 0xa5f9cefc00cd12d1,
   0x3fd3290e1bdffaf2, 0x9240fb3b8f16ccab, 0xc9675f50a684a019, 0x64f48d65324d9640,
   0x7f281786f5a0797d, 0xd2bbc5b361694f24, 0x899c61d848fb2396, 0x240fb3eddc3215cf,
   0x105a7c09ea17c589, 0xbdc9ae3c7edef3d0, 0xe6ee0a57574c9f62, 0x4b7dd862c385a93b,
   0x50a1428104684606, 0xfd3290b490a1705f, 0xa61534dfb9331ced, 0x0b86e6ea2dfa2ab4,
   0x91ac011836e8c297, 0x3c3fd32da221f4ce, 0x671877468bb3987c, 0xca8ba5731f7aae25,
   0xd1573f90d8974118, 0x7cc4eda54c5e7741, 0x27e349ce65cc1bf3, 0x8a709bfbf1052daa,
   0x9e91ac0c130f76fe, 0x33027e3987c640a7, 0x6825da52ae542c15, 0xc5b608673a9d1a4c,
   0xde6a9284fd70f571, 0x73f940b169b9c328, 0x28dee4da402baf9a, 0x854d36efd4e299c3,
   0x1f67d11dcff071e0, 0xb2f403285b3947b9, 0xe9d3a74372ab2b0b, 0x44407576e6621d52,
   0x5f9cef95218ff26f, 0xf20f3da0b546c436, 0xa92899cb9cd4a884, 0x04bb4bfe081d9edd,
   0x30ee841a3e384e9b, 0x9d7d562faaf178c2, 0xc65af24483631470, 0x6bc9207117aa2229,
   0x7015ba92d047cd14, 0xdd8668a7448efb4d, 0x86a1cccc6d1c97ff, 0x2b321ef9f9d5a1a6,
   0xb118f90be2c74985, 0x1c8b2b3e760e7fdc, 0x47ac8f555f9c136e, 0xea3f5d60cb552537,
   0xf1e3c7830cb8ca0a, 0x5c7015b69871fc53, 0x0757b1ddb1e390e1, 0xaac463e8252aa6b8,
   0x6ffc2e15dda8306d, 0xc26ffc2049610634, 0x9948584b60f36a86, 0x34db8a7ef43a5cdf,
   0x2f07109d33d7b3e2, 0x8294c2a8a71e85bb, 0xd9b366c38e8ce909, 0x7420b4f61a45df50,
   0xee0a530401573773, 0x43998131959e012a, 0x18be255abc0c6d98, 0xb52df76f28c55bc1,
   0xaef16d8cef28b4fc, 0x0362bfb97be182a5, 0x58451bd25273ee17, 0xf5d6c9e7c6bad84e,
   0xc1830603f09f0808, 0x6c10d43664563e51, 0x3737705d4dc452e3, 0x9aa4a268d90d64ba,
   0x8178388b1ee08b87, 0x2cebeabe8a29bdde, 0x77cc4ed5a3bbd16c, 0xda5f9ce03772e735,
   0x40757b122c600f16, 0xede6a927b8a9394f, 0xb6c10d4c913b55fd, 0x1b52df7905f263a4,
   0x008e459ac21f8c99, 0xad1d97af56d6bac0, 0xf63a33c47f44d672, 0x5ba9e1f1eb8de02b,
   0xd1d97a0a1a88cd81, 0x7c4aa83f8e41fbd8, 0x276d0c54a7d3976a, 0x8afede61331aa133,
   0x91224482f4f74e0e, 0x3cb196b7603e7857, 0x679632dc49ac14e5, 0xca05e0e9dd6522bc,
   0x502f071bc677ca9f, 0xfdbcd52e52befcc6, 0xa69b71457b2c9074, 0x0b08a370efe5a62d,
   0x10d4399328084910, 0xbd47eba6bcc17f49, 0xe6604fcd955313fb, 0x4bf39df8019a25a2,
   0x7fa6521c37bff5e4, 0xd2358029a376c3bd, 0x891224428ae4af0f, 0x2481f6771e2d9956,
   0x3f5d6c94d9c0766b, 0x92cebea14d094032, 0xc9e91aca649b2c80, 0x647ac8fff0521ad9,
   0xfe502f0deb40f2fa, 0x53c3fd387f89c4a3, 0x08e45953561ba811, 0xa5778b66c2d29e48,
   0xbeab1185053f7175, 0x1338c3b091f6472c, 0x481f67dbb8642b9e, 0xe58cb5ee2cad1dc7,
   0x20b4f813d42f8b12, 0x8d272a2640e6bd4b, 0xd6008e4d6974d1f9, 0x7b935c78fdbde7a0,
   0x604fc69b3a50089d, 0xcddc14aeae993ec4, 0x96fbb0c5870b5276, 0x3b6862f013c2642f,
   0xa142850208d08c0c, 0x0cd157379c19ba55, 0x57f6f35cb58bd6e7, 0xfa6521692142e0be,
   0xe1b9bb8ae6af0f83, 0x4c2a69bf726639da, 0x170dcdd45bf45568, 0xba9e1fe1cf3d6331,
   0x8ecbd005f918b377, 0x235802306dd1852e, 0x787fa65b4443e99c, 0xd5ec746ed08adfc5,
   0xce30ee8d176730f8, 0x63a33cb883ae06a1, 0x388498d3aa3c6a13, 0x95174ae63ef55c4a,
   0x0f3dad1425e7b469, 0xa2ae7f21b12e8230, 0xf989db4a98bcee82, 0x541a097f0c75d8db,
   0x4fc6939ccb9837e6, 0xe25541a95f5101bf, 0xb972e5c276c36d0d, 0x14e137f7e20a5b54]

end Isal.Checksum
